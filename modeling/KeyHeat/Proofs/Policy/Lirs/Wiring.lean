import KeyHeat.Policy.Lirs
import KeyHeat.Proofs.Container.KeyCount
import KeyHeat.Proofs.Container.LinkedList.Handles

/-!
# Nodes, index and handles of the LIRS lists

The index, the node pool, three linked lists and three optional handles in every node describe one
simple thing, the view: a status for each key and three lists of keys. They describe it as long as
they are wired up, which is to say that the index leads to a node for each of its keys and to all
of the nodes, and that the handles of the nodes are those under which the lists hold them. Each step
on nodes and lists keeps them wired up and changes one thing in the view.
-/

namespace KeyHeat

namespace LirsLanes

variable {α β : Type}

theorem change_eq (lanes : LirsLanes α) (lane : LirsLane) (f : α → β × α) :
    lanes.change lane f = ((f (lanes.get lane)).1, lanes.set lane (f (lanes.get lane)).2) := by
  cases lane <;> rfl

theorem get_set (lanes : LirsLanes α) (lane other : LirsLane) (value : α) :
    (lanes.set lane value).get other = if other = lane then value else lanes.get other := by
  cases lane <;> cases other <;> rfl

theorem set_get (lanes : LirsLanes α) (lane : LirsLane) :
    lanes.set lane (lanes.get lane) = lanes := by
  cases lane <;> rfl

end LirsLanes

/-! ## Views -/

/-- The status of every key, and the keys of every list from the front to the back. -/
@[ext]
structure LirsView (κ : Type) where
  status? : κ → Option LirsStatus
  keys : LirsLane → List κ

namespace LirsView

variable {κ : Type} [BEq κ]

def setStatus (view : LirsView κ) (key : κ) (status : Option LirsStatus) : LirsView κ :=
  { view with status? := fun other ↦ if other == key then status else view.status? other }

def setKeys (view : LirsView κ) (lane : LirsLane) (keys : List κ) : LirsView κ :=
  { view with keys := fun other ↦ if other = lane then keys else view.keys other }

/-- The key comes to the front of a list. -/
def enlist (view : LirsView κ) (lane : LirsLane) (key : κ) : LirsView κ :=
  view.setKeys lane (key :: view.keys lane)

def delist (view : LirsView κ) (lane : LirsLane) (key : κ) : LirsView κ :=
  view.setKeys lane ((view.keys lane).erase key)

/-- A key of a list moves to its front. -/
def lift (view : LirsView κ) (lane : LirsLane) (key : κ) : LirsView κ :=
  view.setKeys lane (key :: (view.keys lane).erase key)

/-- The key leaves all lists and has no status any more. -/
def discard (view : LirsView κ) (key : κ) : LirsView κ :=
  { status? := fun other ↦ if other == key then none else view.status? other
    keys := fun lane ↦ (view.keys lane).erase key }

end LirsView

namespace Lirs

variable {κ : Type} [BEq κ] [Hashable κ]

def view (lirs : Lirs κ) : LirsView κ := ⟨lirs.status?, lirs.keys⟩

/-- The key that the node `id` is for. -/
def key? (lirs : Lirs κ) (id : SlotId) : Option κ := (lirs.nodes.get? id).map (·.key)

/-- The index leads to all nodes and to nothing else, and the handles in the nodes are those under
which the lists hold them. -/
structure Wired (lirs : Lirs κ) : Prop where
  valid_nodes : lirs.nodes.Valid
  index_iff : ∀ key id, lirs.index[key]? = some id ↔ lirs.key? id = some key
  size_index : lirs.index.size = lirs.nodes.size
  indexedBy : ∀ lane, (lirs.lanes.get lane).IndexedBy (lirs.handle? lane)

/-- Two states divide the same capacity in the same way. -/
structure SameQuotas (lirs lirs' : Lirs κ) : Prop where
  lirQuota_eq : lirs'.lirQuota = lirs.lirQuota
  residentQuota_eq : lirs'.residentQuota = lirs.residentQuota
  ghostQuota_eq : lirs'.ghostQuota = lirs.ghostQuota
  capacity_eq : lirs'.capacity = lirs.capacity

/-- Two states count the same, and every node of the second is one of the first. -/
structure SameCounts (lirs lirs' : Lirs κ) : Prop extends SameQuotas lirs lirs' where
  lirCount_eq : lirs'.lirCount = lirs.lirCount
  index_of : ∀ (key : κ) (id : SlotId), lirs'.index[key]? = some id → lirs.index[key]? = some id

variable {lirs lirs' lirs'' : Lirs κ} {key : κ} {id : SlotId} {lane : LirsLane}

theorem SameQuotas.refl (lirs : Lirs κ) : lirs.SameQuotas lirs := ⟨rfl, rfl, rfl, rfl⟩

theorem SameQuotas.trans (h : lirs.SameQuotas lirs') (h' : lirs'.SameQuotas lirs'') :
    lirs.SameQuotas lirs'' where
  lirQuota_eq := h'.lirQuota_eq.trans h.lirQuota_eq
  residentQuota_eq := h'.residentQuota_eq.trans h.residentQuota_eq
  ghostQuota_eq := h'.ghostQuota_eq.trans h.ghostQuota_eq
  capacity_eq := h'.capacity_eq.trans h.capacity_eq

/-- Two states differ in their nodes and lists only. -/
theorem SameCounts.of_index (hquotas : lirs.SameQuotas lirs')
    (hcount : lirs'.lirCount = lirs.lirCount) (hindex : lirs'.index = lirs.index) :
    lirs.SameCounts lirs' := by
  refine ⟨hquotas, hcount, ?_⟩
  rw [hindex]
  exact fun _ _ ↦ id

theorem SameCounts.refl (lirs : Lirs κ) : lirs.SameCounts lirs :=
  .of_index (SameQuotas.refl lirs) rfl rfl

theorem SameCounts.trans (h : lirs.SameCounts lirs') (h' : lirs'.SameCounts lirs'') :
    lirs.SameCounts lirs'' where
  toSameQuotas := h.toSameQuotas.trans h'.toSameQuotas
  lirCount_eq := h'.lirCount_eq.trans h.lirCount_eq
  index_of key id hid := h.index_of key id (h'.index_of key id hid)

theorem keys_eq (lirs : Lirs κ) (lane : LirsLane) :
    lirs.keys lane = (lirs.lanes.get lane).toList.filterMap lirs.key? := List.map_filterMap ..

/-! ## Reading -/

theorem keys_of_view {view : LirsView κ} (hview : lirs.view = view) (lane : LirsLane) :
    lirs.keys lane = view.keys lane := congrFun (congrArg LirsView.keys hview) lane

theorem status?_of_view {view : LirsView κ} (hview : lirs.view = view) (key : κ) :
    lirs.status? key = view.status? key := congrFun (congrArg LirsView.status? hview) key

/-- The index leads to a node that is for the key. -/
theorem Wired.exists_node (h : lirs.Wired) (hid : lirs.index[key]? = some id) :
    ∃ node, lirs.nodes.get? id = some node ∧ node.key = key :=
  Option.map_eq_some_iff.1 ((h.index_iff key id).1 hid)

theorem Wired.eq_of_key? (h : lirs.Wired) (hid : lirs.index[key]? = some id) {other : SlotId}
    (hother : lirs.key? other = some key) : other = id := by
  rw [← h.index_iff, hid] at hother
  exact (Option.some_inj.1 hother).symm

/-- Two keys do not share a node. -/
theorem Wired.eq_of_index (h : lirs.Wired) (hid : lirs.index[key]? = some id) {other : κ}
    (hother : lirs.index[other]? = some id) : other = key := by
  rw [h.index_iff, (h.index_iff key id).1 hid] at hother
  exact (Option.some_inj.1 hother).symm

theorem status?_eq (hid : lirs.index[key]? = some id) :
    lirs.status? key = (lirs.nodes.get? id).map (·.status) := by
  rw [status?, hid, Option.bind_some]

theorem handle?_eq {node : LirsNode κ} (hnode : lirs.nodes.get? id = some node)
    (lane : LirsLane) : lirs.handle? lane id = node.handles.get lane := by
  rw [handle?, hnode, Option.bind_some]

/-- A key that keeps its node, unchanged, keeps its status. -/
theorem status?_congr (hindex : lirs'.index[key]? = lirs.index[key]?)
    (hget : ∀ id, lirs.index[key]? = some id → lirs'.nodes.get? id = lirs.nodes.get? id) :
    lirs'.status? key = lirs.status? key := by
  rw [status?, hindex, status?]
  cases hid : lirs.index[key]? with
  | none => rfl
  | some id => rw [Option.bind_some, Option.bind_some, hget id hid]

/-- Exactly the keys of the index have a status. -/
theorem Wired.status?_eq_none (h : lirs.Wired) :
    lirs.status? key = none ↔ lirs.index[key]? = none := by
  cases hid : lirs.index[key]? with
  | none => simp [status?, hid]
  | some id =>
    obtain ⟨node, hnode, -⟩ := h.exists_node hid
    simp [status?_eq hid, hnode]

/-- A node in a list is for a key. -/
theorem Wired.exists_key (h : lirs.Wired) (hmem : id ∈ (lirs.lanes.get lane).toList) :
    ∃ key, lirs.key? id = some key := by
  obtain ⟨handle, hhandle⟩ := (h.indexedBy lane).mem_toList_iff.1 hmem
  obtain ⟨node, hnode, -⟩ := Option.bind_eq_some_iff.1 hhandle
  exact ⟨node.key, by rw [key?, hnode, Option.map_some]⟩

/-- A key is in a list exactly if its node has a handle there. -/
theorem Wired.mem_keys_iff (h : lirs.Wired) (hid : lirs.index[key]? = some id) :
    key ∈ lirs.keys lane ↔ ∃ handle, lirs.handle? lane id = some handle := by
  rw [keys_eq, List.mem_filterMap, ← (h.indexedBy lane).mem_toList_iff]
  constructor
  · rintro ⟨other, hmem, hother⟩
    rwa [← h.eq_of_key? hid hother]
  · intro hmem
    exact ⟨id, hmem, (h.index_iff key id).1 hid⟩

theorem Wired.handle?_eq_none (h : lirs.Wired) (hid : lirs.index[key]? = some id)
    (hnot : key ∉ lirs.keys lane) : lirs.handle? lane id = none := by
  rwa [h.mem_keys_iff hid, ← Option.isSome_iff_exists, Option.not_isSome_iff_eq_none] at hnot

theorem Wired.isSome_handle_iff (h : lirs.Wired) (hid : lirs.index[key]? = some id)
    {node : LirsNode κ} (hnode : lirs.nodes.get? id = some node) (lane : LirsLane) :
    (node.handles.get lane).isSome = true ↔ key ∈ lirs.keys lane := by
  rw [h.mem_keys_iff hid, handle?_eq hnode, Option.isSome_iff_exists]

theorem Wired.nodup_keys (h : lirs.Wired) (lane : LirsLane) : (lirs.keys lane).Nodup := by
  rw [keys_eq]
  apply List.Nodup.filterMap _ (h.indexedBy lane).nodup_toList
  intro id id' key hid hid'
  exact h.eq_of_key? ((h.index_iff key id').2 hid') hid

theorem Wired.length_eq (h : lirs.Wired) (lane : LirsLane) :
    lirs.length lane = (lirs.keys lane).length := by
  rw [length, (h.indexedBy lane).length_eq, keys_eq, List.filterMap_length_eq_length.2]
  intro id hmem
  exact Option.isSome_iff_exists.2 (h.exists_key hmem)

/-- The last node of a list is that of its last key. -/
theorem Wired.getLast?_iff (h : lirs.Wired) (hid : lirs.index[key]? = some id) :
    (lirs.lanes.get lane).toList.getLast? = some id ↔ (lirs.keys lane).getLast? = some key := by
  have hkey := (h.index_iff key id).1 hid
  rw [keys_eq]
  rcases List.eq_nil_or_concat (lirs.lanes.get lane).toList with hnil | ⟨init, last, hconcat⟩
  · rw [hnil, List.filterMap_nil]
    simp
  · rw [List.concat_eq_append] at hconcat
    have hmem : last ∈ (lirs.lanes.get lane).toList := by simp [hconcat]
    obtain ⟨key', hlast⟩ := h.exists_key hmem
    rw [hconcat, List.filterMap_append, List.getLast?_concat, List.filterMap_cons_some hlast,
      List.filterMap_nil, List.getLast?_concat, Option.some_inj, Option.some_inj]
    constructor
    · rintro rfl
      exact Option.some_inj.1 (hlast.symm.trans hkey)
    · rintro rfl
      exact h.eq_of_key? hid hlast

theorem Wired.toList_eq_nil (h : lirs.Wired) (hnil : lirs.keys lane = []) :
    (lirs.lanes.get lane).toList = [] := by
  rw [← List.length_eq_zero_iff, ← (h.indexedBy lane).length_eq]
  exact (h.length_eq lane).trans (by rw [hnil]; rfl)

theorem Wired.exists_index (h : lirs.Wired) (hmem : key ∈ lirs.keys lane) :
    ∃ id, lirs.index[key]? = some id := by
  rw [keys_eq, List.mem_filterMap] at hmem
  obtain ⟨id, -, hid⟩ := hmem
  exact ⟨id, (h.index_iff key id).2 hid⟩

/-- The hot keys are those of the stack that are LIR. -/
theorem Wired.hotKeys_eq (h : lirs.Wired) :
    lirs.hotKeys = (lirs.keys .stack).filter fun key ↦ lirs.status? key = some .lir := by
  rw [hotKeys, keys, List.filter_map]
  congr 1
  apply List.filter_congr
  intro node hmem
  obtain ⟨id, -, hnode⟩ := List.mem_filterMap.1 hmem
  have hid : lirs.index[node.key]? = some id := by
    rw [h.index_iff, key?, hnode, Option.map_some]
  simp [status?_eq hid, hnode]

/-- The count of LIR keys has no part in it. -/
theorem Wired.withCount (h : lirs.Wired) (lirCount : Nat) : { lirs with lirCount }.Wired :=
  ⟨h.valid_nodes, h.index_iff, h.size_index, h.indexedBy⟩

/-! ## Lists and handles -/

/-- The state with another list in the place of one, and another handle there for a node. -/
def relist (lirs : Lirs κ) (lane : LirsLane) (id : SlotId) (list : LinkedList SlotId)
    (handle : Option SlotId) : Lirs κ :=
  { lirs with lanes := lirs.lanes.set lane list }.setHandle lane id handle

theorem lanes_relist (lirs : Lirs κ) (lane : LirsLane) (id : SlotId) (list : LinkedList SlotId)
    (handle : Option SlotId) (other : LirsLane) :
    (lirs.relist lane id list handle).lanes.get other =
      if other = lane then list else lirs.lanes.get other := by
  simp only [relist, setHandle, LirsLanes.get_set]

theorem nodes_relist (lirs : Lirs κ) (lane : LirsLane) (id : SlotId) (list : LinkedList SlotId)
    (handle : Option SlotId) (other : SlotId) :
    (lirs.relist lane id list handle).nodes.get? other =
      if other = id then (lirs.nodes.get? other).map (·.setHandle lane handle)
      else lirs.nodes.get? other :=
  SlotPool.get?_modify ..

theorem handle?_relist_of_ne (lirs : Lirs κ) {list : LinkedList SlotId} {handle : Option SlotId}
    {other : SlotId} (hne : other ≠ id) (lane' : LirsLane) :
    (lirs.relist lane id list handle).handle? lane' other = lirs.handle? lane' other := by
  rw [handle?, nodes_relist, if_neg hne, handle?]

theorem handle?_relist_of_lane_ne (lirs : Lirs κ) {list : LinkedList SlotId}
    {handle : Option SlotId} {other : LirsLane} (hne : other ≠ lane) :
    (lirs.relist lane id list handle).handle? other = lirs.handle? other := by
  funext id'
  rw [handle?, nodes_relist, handle?]
  split_ifs
  · cases lirs.nodes.get? id' with
    | none => rfl
    | some node => simp [LirsNode.setHandle, LirsLanes.get_set, hne]
  · rfl

theorem Wired.handle?_relist (h : lirs.Wired) (hid : lirs.index[key]? = some id)
    {list : LinkedList SlotId} {handle : Option SlotId} :
    (lirs.relist lane id list handle).handle? lane id = handle := by
  obtain ⟨node, hnode, -⟩ := h.exists_node hid
  rw [handle?, nodes_relist, if_pos rfl, hnode]
  simp [LirsNode.setHandle, LirsLanes.get_set]

theorem key?_relist (lirs : Lirs κ) (lane : LirsLane) (id : SlotId) (list : LinkedList SlotId)
    (handle : Option SlotId) : (lirs.relist lane id list handle).key? = lirs.key? := by
  funext other
  rw [key?, nodes_relist, key?]
  split_ifs
  · rw [Option.map_map]
    rfl
  · rfl

theorem status?_relist (lirs : Lirs κ) (lane : LirsLane) (id : SlotId) (list : LinkedList SlotId)
    (handle : Option SlotId) : (lirs.relist lane id list handle).status? = lirs.status? := by
  funext key
  change (lirs.index[key]?.bind _).map _ = (lirs.index[key]?.bind _).map _
  rw [Option.map_bind, Option.map_bind]
  congr 1
  funext other
  rw [Function.comp_apply, Function.comp_apply, nodes_relist]
  split_ifs
  · rw [Option.map_map]
    rfl
  · rfl

/-- A list changes, and with it the handle of one node. -/
theorem Wired.relist (h : lirs.Wired) {list : LinkedList SlotId} {handle : Option SlotId}
    (hlist : list.IndexedBy ((lirs.relist lane id list handle).handle? lane)) :
    (lirs.relist lane id list handle).Wired ∧ (lirs.relist lane id list handle).view =
      lirs.view.setKeys lane (list.toList.filterMap lirs.key?) := by
  have hkey := lirs.key?_relist lane id list handle
  constructor
  · refine ⟨h.valid_nodes.modify _ _, ?_, h.size_index, ?_⟩
    · rw [hkey]
      exact h.index_iff
    · intro other
      rw [lanes_relist]
      split_ifs with heq
      · rwa [heq]
      · rw [handle?_relist_of_lane_ne _ heq]
        exact h.indexedBy other
  · apply LirsView.ext
    · exact status?_relist ..
    · funext other
      change Lirs.keys _ other = if _ then _ else lirs.keys other
      rw [Lirs.keys_eq, hkey, lanes_relist, Lirs.keys_eq]
      split_ifs <;> rfl

theorem enlist_eq (lirs : Lirs κ) (lane : LirsLane) (id : SlotId) :
    lirs.enlist lane id = lirs.relist lane id ((lirs.lanes.get lane).push .front id).2
      (some ((lirs.lanes.get lane).push .front id).1) := by
  rw [enlist, LirsLanes.change_eq]
  rfl

theorem delist_eq (lirs : Lirs κ) (lane : LirsLane) (id handle : SlotId) :
    lirs.delist lane id (some handle) =
      lirs.relist lane id ((lirs.lanes.get lane).remove handle).2 none := by
  rw [delist, unlink, LirsLanes.change_eq]
  rfl

/-- A node that is not in a list is put at its front. -/
theorem Wired.enlist (h : lirs.Wired) (hid : lirs.index[key]? = some id)
    (hnot : key ∉ lirs.keys lane) :
    (lirs.enlist lane id).Wired ∧ (lirs.enlist lane id).view = lirs.view.enlist lane key := by
  rw [enlist_eq]
  obtain ⟨hlist, htoList⟩ := (h.indexedBy lane).push (h.handle?_eq_none hid hnot)
    (h.handle?_relist hid) fun other hne ↦ handle?_relist_of_ne lirs hne lane
  obtain ⟨hwired, hview⟩ := h.relist hlist
  refine ⟨hwired, ?_⟩
  rw [hview, htoList, List.filterMap_cons_some ((h.index_iff key id).1 hid), ← keys_eq]
  rfl

variable [LawfulBEq κ]

omit [Hashable κ] in
/-- What maps to a value is removed, and with it the value. -/
theorem filterMap_erase {f : SlotId → Option κ} (hid : f id = some key)
    (hinj : ∀ other, f other = some key → other = id) (ids : List SlotId) :
    (ids.erase id).filterMap f = (ids.filterMap f).erase key := by
  induction ids with
  | nil => rfl
  | cons other ids ih =>
    by_cases heq : other = id
    · rw [heq, List.erase_cons_head, List.filterMap_cons_some hid, List.erase_cons_head]
    · rw [List.erase_cons_tail (by simpa using heq)]
      cases hother : f other with
      | none => rw [List.filterMap_cons_none hother, List.filterMap_cons_none hother, ih]
      | some key' =>
        have hne : key' ≠ key := by
          rintro rfl
          exact heq (hinj other hother)
        rw [List.filterMap_cons_some hother, List.filterMap_cons_some hother,
          List.erase_cons_tail (by simpa using hne), ih]

theorem Wired.filterMap_erase (h : lirs.Wired) (hid : lirs.index[key]? = some id)
    (lane : LirsLane) : ((lirs.lanes.get lane).toList.erase id).filterMap lirs.key? =
      (lirs.keys lane).erase key := by
  rw [keys_eq]
  exact Lirs.filterMap_erase ((h.index_iff key id).1 hid) (fun _ ↦ h.eq_of_key? hid) _

/-- A node of a list is taken out of it. -/
theorem Wired.delist (h : lirs.Wired) (hid : lirs.index[key]? = some id)
    (hmem : key ∈ lirs.keys lane) :
    (lirs.delist lane id (lirs.handle? lane id)).Wired ∧
      (lirs.delist lane id (lirs.handle? lane id)).view = lirs.view.delist lane key := by
  obtain ⟨handle, hhandle⟩ := (h.mem_keys_iff hid).1 hmem
  rw [hhandle, delist_eq]
  obtain ⟨hlist, htoList⟩ := (h.indexedBy lane).remove hhandle (h.handle?_relist hid)
    fun other hne ↦ handle?_relist_of_ne lirs hne lane
  obtain ⟨hwired, hview⟩ := h.relist hlist
  refine ⟨hwired, ?_⟩
  rw [hview, htoList, h.filterMap_erase hid]
  rfl

/-- A node of a list moves to its front. -/
theorem Wired.lift (h : lirs.Wired) (hid : lirs.index[key]? = some id)
    (hmem : key ∈ lirs.keys lane) :
    (lirs.lift lane (lirs.handle? lane id)).Wired ∧
      (lirs.lift lane (lirs.handle? lane id)).view = lirs.view.lift lane key := by
  obtain ⟨handle, hhandle⟩ := (h.mem_keys_iff hid).1 hmem
  obtain ⟨hlist, htoList⟩ := (h.indexedBy lane).move hhandle
  have hlanes (other : LirsLane) : (lirs.lift lane (some handle)).lanes.get other =
      if other = lane then ((lirs.lanes.get lane).move handle .front).2
      else lirs.lanes.get other := by
    rw [Lirs.lift, LirsLanes.change_eq, LirsLanes.get_set]
  rw [hhandle]
  constructor
  · refine ⟨h.valid_nodes, h.index_iff, h.size_index, ?_⟩
    intro other
    rw [hlanes]
    split_ifs with heq
    · rw [heq]
      exact hlist
    · exact h.indexedBy other
  · apply LirsView.ext
    · rfl
    · funext other
      change Lirs.keys _ other = if _ then key :: (lirs.keys lane).erase key else lirs.keys other
      rw [Lirs.keys_eq, hlanes]
      split_ifs
      · rw [htoList, ← h.filterMap_erase hid]
        exact List.filterMap_cons_some ((h.index_iff key id).1 hid)
      · rw [Lirs.keys_eq]
        rfl

omit [LawfulBEq κ] in
/-- The last key of a list leaves it. -/
theorem Wired.popBack (h : lirs.Wired) (hlast : (lirs.keys lane).getLast? = some key) :
    ∃ id, lirs.index[key]? = some id ∧
      lirs.popBack lane = (some id, lirs.delist lane id (lirs.handle? lane id)) := by
  obtain ⟨id, hid⟩ := h.exists_index (List.mem_of_getLast? hlast)
  obtain ⟨handle, hhandle, hpop⟩ := (h.indexedBy lane).pop_back ((h.getLast?_iff hid).2 hlast)
  refine ⟨id, hid, ?_⟩
  rw [Lirs.popBack, LirsLanes.change_eq, hpop, hhandle, delist_eq]
  rfl

omit [LawfulBEq κ] in
theorem Wired.popBack_nil (h : lirs.Wired) (hnil : lirs.keys lane = []) :
    lirs.popBack lane = (none, lirs) := by
  rw [Lirs.popBack, LirsLanes.change_eq, (h.indexedBy lane).pop_back_nil (h.toList_eq_nil hnil),
    LirsLanes.set_get]

omit [LawfulBEq κ] in
theorem Wired.peek?_back (h : lirs.Wired) (hid : lirs.index[key]? = some id)
    (hlast : (lirs.keys lane).getLast? = some key) :
    (lirs.lanes.get lane).peek? .back = some id := by
  rw [(h.indexedBy lane).peek?_back, h.getLast?_iff hid, hlast]

omit [LawfulBEq κ] in
theorem Wired.peek?_back_nil (h : lirs.Wired) (hnil : lirs.keys lane = []) :
    (lirs.lanes.get lane).peek? .back = none := by
  rw [(h.indexedBy lane).peek?_back, h.toList_eq_nil hnil]
  rfl

/-! ## Nodes -/

theorem Wired.setStatus (h : lirs.Wired) (hid : lirs.index[key]? = some id)
    (status : LirsStatus) :
    (lirs.setStatus id status).Wired ∧
      (lirs.setStatus id status).view = lirs.view.setStatus key (some status) := by
  obtain ⟨node, hnode, -⟩ := h.exists_node hid
  have hget (other : SlotId) : (lirs.setStatus id status).nodes.get? other =
      if other = id then (lirs.nodes.get? other).map ({ · with status })
      else lirs.nodes.get? other := SlotPool.get?_modify ..
  have hkey : (lirs.setStatus id status).key? = lirs.key? := by
    funext other
    rw [key?, hget, key?]
    split_ifs
    · rw [Option.map_map]
      rfl
    · rfl
  have hhandle : (lirs.setStatus id status).handle? = lirs.handle? := by
    funext lane other
    rw [handle?, hget, handle?]
    split_ifs
    · rw [Option.bind_map]
      rfl
    · rfl
  constructor
  · refine ⟨h.valid_nodes.modify _ _, ?_, h.size_index, ?_⟩
    · rw [hkey]
      exact h.index_iff
    · rw [hhandle]
      exact h.indexedBy
  · apply LirsView.ext
    · funext other
      change Lirs.status? _ other = if _ then _ else lirs.status? other
      by_cases heq : other = key
      · subst heq
        have hstatus : (lirs.setStatus id status).status? other = _ := status?_eq hid
        rw [hstatus, hget]
        simp [hnode]
      · rw [if_neg (by simpa using heq)]
        refine status?_congr rfl ?_
        intro id' hother
        have hne : id' ≠ id := by
          rintro rfl
          exact heq (h.eq_of_index hid hother)
        rw [hget, if_neg hne]
    · funext lane
      change Lirs.keys _ lane = lirs.keys lane
      rw [Lirs.keys_eq, hkey, Lirs.keys_eq]
      rfl

/-! ## A new node -/

omit [LawfulBEq κ] in
theorem Wired.get?_allot_self (h : lirs.Wired) (key : κ) :
    lirs.nodes.get? (lirs.allot key).1 = none := SlotPool.get?_fst_insert h.valid_nodes _

omit [LawfulBEq κ] in
theorem Wired.get?_allot (h : lirs.Wired) (key : κ) (id : SlotId) :
    (lirs.allot key).2.nodes.get? id =
      if id = (lirs.allot key).1 then some ⟨key, .lir, ⟨none, none, none⟩⟩
      else lirs.nodes.get? id := SlotPool.get?_insert h.valid_nodes _ id

theorem index_allot (lirs : Lirs κ) (key other : κ) :
    (lirs.allot key).2.index[other]? =
      if key == other then some (lirs.allot key).1 else lirs.index[other]? :=
  Std.HashMap.getElem?_insert

omit [LawfulBEq κ] in
theorem Wired.key?_allot (h : lirs.Wired) (key : κ) (id : SlotId) :
    (lirs.allot key).2.key? id =
      if id = (lirs.allot key).1 then some key else lirs.key? id := by
  rw [key?, h.get?_allot, key?]
  split_ifs <;> rfl

omit [LawfulBEq κ] in
/-- A slot that is taken for a new node was for no key. -/
theorem Wired.ne_allot (h : lirs.Wired) {other : κ} (hother : lirs.key? id = some other) :
    id ≠ (lirs.allot key).1 := by
  rintro rfl
  rw [key?, h.get?_allot_self] at hother
  cases hother

omit [LawfulBEq κ] in
theorem Wired.handle?_allot (h : lirs.Wired) (key : κ) :
    (lirs.allot key).2.handle? = lirs.handle? := by
  funext lane id
  rw [handle?, h.get?_allot, handle?]
  split_ifs with heq
  · rw [heq, h.get?_allot_self]
    cases lane <;> rfl
  · rfl

theorem Wired.index_allot_iff (h : lirs.Wired) (hnone : lirs.index[key]? = none) (other : κ)
    (id : SlotId) :
    (lirs.allot key).2.index[other]? = some id ↔
      (lirs.allot key).2.key? id = some other := by
  rw [index_allot, h.key?_allot]
  by_cases heq : key = other
  · subst heq
    have hnot : lirs.key? id ≠ some key := by
      rw [Ne, ← h.index_iff, hnone]
      exact nofun
    rw [if_pos BEq.rfl, Option.some_inj]
    split_ifs with hid
    · exact iff_of_true hid.symm rfl
    · exact iff_of_false (Ne.symm hid) hnot
  · rw [if_neg (by simpa using heq), h.index_iff]
    split_ifs with hid
    · refine iff_of_false (fun hother ↦ h.ne_allot hother hid) ?_
      simpa using heq
    · rfl

theorem Wired.view_allot (h : lirs.Wired) (hnone : lirs.index[key]? = none) :
    (lirs.allot key).2.view = lirs.view.setStatus key (some .lir) := by
  apply LirsView.ext
  · funext other
    change Lirs.status? _ other = if other == key then _ else lirs.status? other
    by_cases heq : other = key
    · subst heq
      have hid : (lirs.allot other).2.index[other]? = some (lirs.allot other).1 := by
        rw [index_allot, if_pos BEq.rfl]
      rw [status?_eq hid, h.get?_allot, if_pos rfl, if_pos BEq.rfl]
      rfl
    · rw [if_neg (by simpa using heq)]
      apply status?_congr
      · rw [index_allot, if_neg (by simpa using Ne.symm heq)]
      · intro id hother
        rw [h.get?_allot, if_neg (h.ne_allot ((h.index_iff other id).1 hother))]
  · funext lane
    change Lirs.keys _ lane = lirs.keys lane
    rw [Lirs.keys_eq, Lirs.keys_eq]
    apply List.filterMap_congr
    intro id hmem
    obtain ⟨other, hother⟩ := h.exists_key hmem
    rw [h.key?_allot, if_neg (h.ne_allot hother)]

/-- A new key gets a node that is in no list. -/
theorem Wired.allot (h : lirs.Wired) (hnone : lirs.index[key]? = none) :
    (lirs.allot key).2.Wired ∧ (lirs.allot key).2.index[key]? = some (lirs.allot key).1 ∧
      (lirs.allot key).2.view = lirs.view.setStatus key (some .lir) := by
  have hsize : (lirs.allot key).2.index.size = (lirs.allot key).2.nodes.size := by
    calc
      _ = lirs.index.size + 1 := by
        change (lirs.index.insert key _).size = _
        rw [Std.HashMap.size_insert, if_neg (not_mem_of_getElem? hnone)]
      _ = lirs.nodes.size + 1 := by rw [h.size_index]
      _ = _ := (SlotPool.size_insert ..).symm
  refine ⟨⟨h.valid_nodes.insert _, h.index_allot_iff hnone, hsize, ?_⟩, ?_, h.view_allot hnone⟩
  · rw [h.handle?_allot]
    exact h.indexedBy
  · rw [index_allot, if_pos BEq.rfl]

/-! ## Freeing a node -/

/-- A list without what a handle leads to. -/
def without (list : LinkedList SlotId) : Option SlotId → LinkedList SlotId
  | some handle => (list.remove handle).2
  | none => list

/-- A list without the node `id`. -/
def withdrawn (lirs : Lirs κ) (lane : LirsLane) (id : SlotId) : LinkedList SlotId :=
  without (lirs.lanes.get lane) (lirs.handle? lane id)

omit [LawfulBEq κ] in
theorem lanes_unlink (lirs : Lirs κ) (lane : LirsLane) (handle : Option SlotId)
    (other : LirsLane) : (lirs.unlink lane handle).lanes.get other =
      if other = lane then without (lirs.lanes.get lane) handle else lirs.lanes.get other := by
  cases handle with
  | none =>
    dsimp only [unlink, without]
    split_ifs with heq
    · rw [heq]
    · rfl
  | some handle =>
    dsimp only [unlink, without]
    rw [LirsLanes.change_eq, LirsLanes.get_set]

omit [LawfulBEq κ] in
theorem Wired.withdrawn (h : lirs.Wired) (lane : LirsLane) (id : SlotId) :
    (lirs.withdrawn lane id).IndexedBy
        (fun other ↦ if other = id then none else lirs.handle? lane other) ∧
      (lirs.withdrawn lane id).toList = (lirs.lanes.get lane).toList.erase id := by
  have hlane := h.indexedBy lane
  unfold Lirs.withdrawn
  cases hhandle : lirs.handle? lane id with
  | none =>
    have hsame : (fun other ↦ if other = id then none else lirs.handle? lane other) =
        lirs.handle? lane := by
      funext other
      split_ifs with heq
      · rw [heq, hhandle]
      · rfl
    have hnot : id ∉ (lirs.lanes.get lane).toList := by
      rw [hlane.mem_toList_iff, hhandle]
      simp
    rw [hsame]
    exact ⟨hlane, (List.erase_of_not_mem hnot).symm⟩
  | some handle => exact hlane.remove hhandle (if_pos rfl) fun other hne ↦ if_neg hne

omit [LawfulBEq κ] in
/-- The handle of the node that is gone leads nowhere. -/
theorem Wired.without_withdrawn (h : lirs.Wired) (lane : LirsLane) (id : SlotId) :
    without (lirs.withdrawn lane id) (lirs.handle? lane id) = lirs.withdrawn lane id := by
  cases hhandle : lirs.handle? lane id with
  | none => rfl
  | some handle =>
    have hmissing (other : SlotId) :
        (if other = id then none else lirs.handle? lane other) ≠ some handle := by
      intro hother
      split_ifs at hother with hne
      have hfirst := (h.indexedBy lane).get?_eq_some_iff.2 hhandle
      rw [(h.indexedBy lane).get?_eq_some_iff.2 hother, Option.some_inj] at hfirst
      exact hne hfirst
    rw [without, (h.withdrawn lane id).1.remove_of_missing hmissing]

omit [LawfulBEq κ] in
theorem Wired.withdrawn_of_not_mem (h : lirs.Wired) (hid : lirs.index[key]? = some id)
    (hnot : key ∉ lirs.keys lane) : lirs.withdrawn lane id = lirs.lanes.get lane := by
  rw [Lirs.withdrawn, h.handle?_eq_none hid hnot, without]

/-- A node is freed, and with it the key and its places in the lists. -/
theorem Wired.drop (h : lirs.Wired) (hid : lirs.index[key]? = some id)
    (hnodes : lirs'.nodes = lirs.nodes.erase id) (hindex : lirs'.index = lirs.index.erase key)
    (hlanes : ∀ lane, lirs'.lanes.get lane = lirs.withdrawn lane id) :
    lirs'.Wired ∧ lirs'.view = lirs.view.discard key := by
  obtain ⟨node, hnode, hnodeKey⟩ := h.exists_node hid
  have hget (other : SlotId) : lirs'.nodes.get? other =
      if other = id then none else lirs.nodes.get? other := by
    rw [hnodes, SlotPool.get?_erase]
  have hkey (other : SlotId) : lirs'.key? other = if other = id then none else lirs.key? other := by
    rw [key?, hget, key?]
    split_ifs <;> rfl
  have hhandle (lane : LirsLane) : lirs'.handle? lane =
      fun other ↦ if other = id then none else lirs.handle? lane other := by
    funext other
    rw [handle?, hget, handle?]
    split_ifs <;> rfl
  have hindexed (other : κ) : lirs'.index[other]? =
      if key == other then none else lirs.index[other]? := by
    rw [hindex, Std.HashMap.getElem?_erase]
  have hindexIff (other : κ) (id' : SlotId) :
      lirs'.index[other]? = some id' ↔ lirs'.key? id' = some other := by
    rw [hindexed, hkey]
    by_cases hne : id' = id
    · subst hne
      rw [if_pos rfl]
      split_ifs with heq
      · simp
      · rw [h.index_iff, (h.index_iff key id').1 hid]
        simpa using heq
    · rw [if_neg hne]
      split_ifs with heq
      · obtain rfl : key = other := by simpa using heq
        rw [← h.index_iff, hid]
        simpa using Ne.symm hne
      · exact h.index_iff other id'
  have hsize : lirs'.index.size = lirs'.nodes.size := by
    rw [hindex, hnodes, size_erase_of_getElem? hid, SlotPool.size_erase hnode, h.size_index]
  constructor
  · refine ⟨hnodes ▸ h.valid_nodes.erase id, hindexIff, hsize, ?_⟩
    intro lane
    rw [hlanes, hhandle]
    exact (h.withdrawn lane id).1
  · apply LirsView.ext
    · funext other
      change lirs'.status? other = if other == key then none else lirs.status? other
      by_cases heq : other = key
      · simp [status?, hindexed, heq]
      · rw [if_neg (by simpa using heq)]
        apply status?_congr
        · rw [hindexed, if_neg (by simpa using Ne.symm heq)]
        · intro id' hother
          have hne : id' ≠ id := by
            rintro rfl
            exact heq (h.eq_of_index hid hother)
          rw [hget, if_neg hne]
    · funext lane
      change Lirs.keys _ lane = (lirs.keys lane).erase key
      have hnodup := (h.indexedBy lane).nodup_toList
      rw [Lirs.keys_eq, hlanes, (h.withdrawn lane id).2, ← h.filterMap_erase hid]
      apply List.filterMap_congr
      intro other hmem
      rw [hkey, if_neg (hnodup.mem_erase_iff.1 hmem).1]

omit [LawfulBEq κ] in
theorem destroy_eq {node : LirsNode κ} (hnode : lirs.nodes.get? id = some node) :
    lirs.destroy id =
      { { lirs with nodes := lirs.nodes.erase id }.unlink .ghosts node.handles.ghosts with
        index := lirs.index.erase node.key } := by
  rw [Lirs.destroy, SlotPool.remove_eq, hnode]

omit [LawfulBEq κ] in
theorem sameCounts_delist (lirs : Lirs κ) (lane : LirsLane) (id : SlotId)
    (handle : Option SlotId) : lirs.SameCounts (lirs.delist lane id handle) :=
  .of_index ⟨rfl, rfl, rfl, rfl⟩ rfl rfl

theorem sameCounts_destroy (lirs : Lirs κ) (id : SlotId) : lirs.SameCounts (lirs.destroy id) := by
  unfold destroy
  rcases lirs.nodes.remove id with ⟨_ | node, nodes⟩
  · exact .of_index ⟨rfl, rfl, rfl, rfl⟩ rfl rfl
  · refine ⟨⟨rfl, rfl, rfl, rfl⟩, rfl, ?_⟩
    intro key id' hid
    dsimp only at hid
    rw [Std.HashMap.getElem?_erase] at hid
    split_ifs at hid
    exact hid

/-- A node is freed when the stack and the queue are already without it; the ghost list may be. -/
theorem Wired.destroy_withdrawn (h : lirs.Wired) (hid : lirs.index[key]? = some id)
    (hnodes : lirs'.nodes = lirs.nodes) (hindex : lirs'.index = lirs.index)
    (hstack : lirs'.lanes.get .stack = lirs.withdrawn .stack id)
    (hqueue : lirs'.lanes.get .queue = lirs.withdrawn .queue id)
    (hghosts : without (lirs'.lanes.get .ghosts) (lirs.handle? .ghosts id) =
      lirs.withdrawn .ghosts id) :
    (lirs'.destroy id).Wired ∧ (lirs'.destroy id).view = lirs.view.discard key := by
  obtain ⟨node, hnode, rfl⟩ := h.exists_node hid
  rw [handle?_eq hnode] at hghosts
  rw [← hnodes] at hnode
  rw [destroy_eq hnode]
  apply h.drop hid
  · exact congrArg (·.erase id) hnodes
  · exact congrArg (·.erase node.key) hindex
  · intro lane
    dsimp only
    rw [lanes_unlink]
    cases lane with
    | stack => exact hstack
    | queue => exact hqueue
    | ghosts => exact hghosts

/-- A node that is in neither the stack nor the queue is freed. -/
theorem Wired.destroy (h : lirs.Wired) (hid : lirs.index[key]? = some id)
    (hstack : key ∉ lirs.keys .stack) (hqueue : key ∉ lirs.keys .queue) :
    (lirs.destroy id).Wired ∧ (lirs.destroy id).view = lirs.view.discard key :=
  h.destroy_withdrawn hid rfl rfl (h.withdrawn_of_not_mem hid hstack).symm
    (h.withdrawn_of_not_mem hid hqueue).symm rfl

/-- The oldest key of the ghost list leaves that and the stack, and is forgotten. -/
theorem Wired.evict (h : lirs.Wired) (hlast : (lirs.keys .ghosts).getLast? = some key)
    (hqueue : key ∉ lirs.keys .queue) :
    lirs.evict = (true, lirs.evict.2) ∧ lirs.evict.2.Wired ∧
      lirs.evict.2.view = lirs.view.discard key ∧ lirs.SameCounts lirs.evict.2 := by
  obtain ⟨id, hid⟩ := h.exists_index (List.mem_of_getLast? hlast)
  obtain ⟨handle, hhandle, hpop⟩ :=
    (h.indexedBy .ghosts).pop_back ((h.getLast?_iff hid).2 hlast)
  have hwithdrawn : lirs.withdrawn .ghosts id = ((lirs.lanes.get .ghosts).remove handle).2 := by
    rw [Lirs.withdrawn, hhandle, without]
  let popped := { lirs with lanes := lirs.lanes.set .ghosts (lirs.withdrawn .ghosts id) }
  let unlinked := popped.unlink .stack (lirs.handle? .stack id)
  have heq : lirs.evict = (true, unlinked.destroy id) := by
    rw [Lirs.evict, LirsLanes.change_eq, hpop, ← hwithdrawn]
    rfl
  have hcounts : lirs.SameCounts unlinked := .of_index ⟨rfl, rfl, rfl, rfl⟩ rfl rfl
  have hstack : unlinked.lanes.get .stack = lirs.withdrawn .stack id := by
    rw [lanes_unlink]
    rfl
  have hqueue' : unlinked.lanes.get .queue = lirs.withdrawn .queue id := by
    rw [lanes_unlink, h.withdrawn_of_not_mem hid hqueue]
    rfl
  have hghosts : without (unlinked.lanes.get .ghosts) (lirs.handle? .ghosts id) =
      lirs.withdrawn .ghosts id := by
    rw [lanes_unlink]
    exact h.without_withdrawn .ghosts id
  have hnodes : unlinked.nodes = lirs.nodes := rfl
  have hindex : unlinked.index = lirs.index := rfl
  obtain ⟨hwired, hview⟩ := h.destroy_withdrawn hid hnodes hindex hstack hqueue' hghosts
  rw [heq]
  exact ⟨rfl, hwired, hview, hcounts.trans (unlinked.sameCounts_destroy id)⟩

omit [LawfulBEq κ] in
theorem wired_empty (capacity lirQuota residentQuota ghostQuota : Nat) :
    (ofQuotas capacity lirQuota residentQuota ghostQuota : Lirs κ).Wired where
  valid_nodes := SlotPool.valid_empty
  index_iff key id := by simp [ofQuotas, key?]
  size_index := by simp [ofQuotas, SlotPool.size, SlotPool.empty]
  indexedBy lane := by
    have hhandle : (ofQuotas capacity lirQuota residentQuota ghostQuota : Lirs κ).handle? lane =
        fun _ ↦ none := by
      funext id
      simp [ofQuotas, handle?]
    rw [hhandle]
    cases lane <;> exact LinkedList.indexedBy_empty

end Lirs

end KeyHeat

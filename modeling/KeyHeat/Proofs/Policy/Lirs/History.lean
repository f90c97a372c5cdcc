import KeyHeat.Proofs.Policy.Lirs.SelfCheck

/-!
# Runs of the LIRS policy

Whatever calls a separator has served, its state is valid. The main results describe every state
that a run can reach: how the next access changes the hot keys, so that a scan over keys that are
not tracked changes nothing once the LIR quota is used up, and where each key is, how many there
can be, and which branches of an access are never taken.
-/

namespace KeyHeat.Lirs

variable {κ : Type} [BEq κ] [Hashable κ]

/-- A call to a separator. -/
inductive Call (κ : Type) where
  | put (key : κ)
  | get (key : κ)
  deriving Repr

def Call.key : Call κ → κ
  | put key => key
  | get key => key

/-- The outcome of a call and the state that it leaves. -/
def serve (lirs : Lirs κ) : Call κ → Access × Lirs κ
  | .put key => lirs.put key
  | .get key => lirs.get key

/-- The state after some calls, one after the other. -/
def run (lirs : Lirs κ) (calls : List (Call κ)) : Lirs κ :=
  calls.foldl (fun lirs call ↦ (lirs.serve call).2) lirs

/-- Each of the keys is untracked when it is written, if they are written one after the other. -/
def Scans (lirs : Lirs κ) : List κ → Prop
  | [] => True
  | key :: rest => lirs.status? key = none ∧ Scans (lirs.put key).2 rest

variable {lirs : Lirs κ} {key : κ}

theorem run_cons (lirs : Lirs κ) (call : Call κ) (calls : List (Call κ)) :
    lirs.run (call :: calls) = (lirs.serve call).2.run calls := rfl

variable [LawfulBEq κ]

/-! ## One call -/

theorem Valid.serve (h : lirs.Valid) (call : Call κ) :
    (lirs.serve call).2.Valid ∧ lirs.SameQuotas (lirs.serve call).2 := by
  cases call with
  | put key => exact ⟨(h.put key).1, (h.put key).2.1⟩
  | get key => exact ⟨(h.get key).1, (h.get key).2.1⟩

/-- No access makes the list of hot keys shorter. -/
theorem Valid.length_hotKeys_le (h : lirs.Valid) (key : κ) :
    lirs.hotKeys.length ≤ (lirs.hotAfter key).length := by
  have hexchange (hmem : key ∈ lirs.keys .queue ∨ key ∈ lirs.keys .ghosts) :
      lirs.hotKeys.length ≤ (exchange lirs.lirQuota key lirs.hotKeys).length := by
    have hlength := h.lirCount_eq.symm.trans (h.full key hmem)
    rw [length_exchange hlength, hlength]
  unfold hotAfter
  cases hstatus : lirs.status? key with
  | none =>
    dsimp only
    split_ifs
    · exact Nat.le_succ _
    · exact Nat.le_refl _
  | some status =>
    cases status with
    | lir =>
      have hmem : key ∈ lirs.hotKeys := h.mem_hotKeys_iff.2 hstatus
      exact Nat.le_of_eq (List.length_erase_add_one hmem).symm
    | resident =>
      dsimp only
      split_ifs
      · exact hexchange (.inl (h.mem_queue.2 hstatus))
      · exact Nat.le_refl _
    | nonResident => exact hexchange (.inr (h.mem_ghosts.2 hstatus))

theorem Serves.lirCount_le {lirs' : Lirs κ} (hserves : Serves lirs lirs' key (lirs.hotAfter key))
    (h : lirs.Valid) : lirs.lirCount ≤ lirs'.lirCount := by
  calc
    _ = lirs.hotKeys.length := h.lirCount_eq
    _ ≤ (lirs.hotAfter key).length := h.length_hotKeys_le key
    _ = lirs'.hotKeys.length := by rw [hserves.hotKeys_eq]
    _ = lirs'.lirCount := hserves.valid.lirCount_eq.symm

theorem Valid.lirCount_le_serve (h : lirs.Valid) (hpos : 0 < lirs.capacity) (call : Call κ) :
    lirs.lirCount ≤ (lirs.serve call).2.lirCount := by
  cases call with
  | put key => exact (h.put_serves hpos key).2.lirCount_le h
  | get key =>
    by_cases hnone : lirs.status? key = none
    · rw [Lirs.serve, get_of_index_eq_none (h.arranged.wired.status?_eq_none.1 hnone)]
    · exact (h.get_serves hnone).2.lirCount_le h

/-- The key of a call that succeeds is resident afterwards. -/
theorem Valid.resident_of_ok (h : lirs.Valid) (hpos : 0 < lirs.capacity) {call : Call κ}
    (hok : (lirs.serve call).1 = .ok ()) :
    (lirs.serve call).2.status? call.key = some .lir ∨
      (lirs.serve call).2.status? call.key = some .resident := by
  cases call with
  | put key => exact (h.put_serves hpos key).2.resident
  | get key =>
    by_cases hnone : lirs.status? key = none
    · rw [Lirs.serve, get_of_index_eq_none (h.arranged.wired.status?_eq_none.1 hnone)] at hok
      cases hok
    · exact (h.get_serves hnone).2.resident

/-! ## Many calls -/

theorem Valid.run (h : lirs.Valid) (calls : List (Call κ)) :
    (lirs.run calls).Valid ∧ lirs.SameQuotas (lirs.run calls) := by
  induction calls generalizing lirs with
  | nil => exact ⟨h, SameQuotas.refl lirs⟩
  | cons call calls ih =>
    obtain ⟨hvalid, hquotas⟩ := h.serve call
    obtain ⟨hvalid', hquotas'⟩ := ih hvalid
    exact ⟨hvalid', hquotas.trans hquotas'⟩

theorem Valid.lirCount_le_run (h : lirs.Valid) (hpos : 0 < lirs.capacity)
    (calls : List (Call κ)) : lirs.lirCount ≤ (lirs.run calls).lirCount := by
  induction calls generalizing lirs with
  | nil => exact Nat.le_refl _
  | cons call calls ih =>
    obtain ⟨hvalid, hquotas⟩ := h.serve call
    have hpos' : 0 < (lirs.serve call).2.capacity := by rwa [hquotas.capacity_eq]
    calc
      _ ≤ (lirs.serve call).2.lirCount := h.lirCount_le_serve hpos call
      _ ≤ ((lirs.serve call).2.run calls).lirCount := ih hvalid hpos'
      _ = _ := by rw [run_cons]

/-- Once the LIR quota is used up, a scan leaves the hot keys alone. -/
theorem Valid.hotKeys_scan (h : lirs.Valid) (hpos : 0 < lirs.capacity)
    (hfull : lirs.lirCount = lirs.lirQuota) {keys : List κ} (hscans : lirs.Scans keys) :
    (lirs.run (keys.map .put)).hotKeys = lirs.hotKeys := by
  induction keys generalizing lirs with
  | nil => rfl
  | cons key rest ih =>
    obtain ⟨hnone, hrest⟩ := hscans
    have hserves := (h.put_serves hpos key).2
    have hsame : (lirs.put key).2.hotKeys = lirs.hotKeys := by
      rw [hserves.hotKeys_eq, hotAfter, hnone]
      exact if_neg (Nat.not_lt.2 (Nat.le_of_eq hfull.symm))
    have hfull' : (lirs.put key).2.lirCount = (lirs.put key).2.lirQuota := by
      rw [hserves.valid.lirCount_eq, hsame, ← h.lirCount_eq, hfull, hserves.quotas.lirQuota_eq]
    have hpos' : 0 < (lirs.put key).2.capacity := by rwa [hserves.quotas.capacity_eq]
    calc
      _ = ((lirs.put key).2.run (rest.map .put)).hotKeys := by
        rw [List.map_cons, run_cons, Lirs.serve]
      _ = (lirs.put key).2.hotKeys := ih hserves.valid hpos' hfull' hrest
      _ = lirs.hotKeys := hsame

/-! ## Reachable states -/

/-- A state that a separator with the given parameters is in after some calls. -/
def Reachable (lirs : Lirs κ) (capacity : Nat) (lirRatio : Float)
    (maxNonResident : Option Nat) : Prop :=
  ∃ (start : Lirs κ) (calls : List (Call κ)),
    create capacity lirRatio maxNonResident = .ok start ∧ lirs = start.run calls

variable {capacity : Nat} {lirRatio : Float} {maxNonResident : Option Nat}

theorem Reachable.valid (h : lirs.Reachable capacity lirRatio maxNonResident) : lirs.Valid := by
  obtain ⟨start, calls, hstart, rfl⟩ := h
  exact ((valid_create hstart).run calls).1

theorem Reachable.sameQuotas (h : lirs.Reachable capacity lirRatio maxNonResident) :
    SameQuotas (ofQuotas capacity (lirShare capacity lirRatio) (residentShare capacity lirRatio)
      (maxNonResident.getD capacity)) lirs := by
  obtain ⟨start, calls, hstart, rfl⟩ := h
  rw [← create_eq hstart]
  exact ((valid_create hstart).run calls).2

/-! ## The hot keys -/

/-- A write of any key and a read of a tracked key change the hot keys as the status of the key
says. Once the LIR quota is used up, a scan does not change them. -/
theorem hotKeys_after_access (h : lirs.Reachable capacity lirRatio maxNonResident)
    (hpos : 1 ≤ capacity) :
    (∀ key : κ, (lirs.put key).2.hotKeys = lirs.hotAfter key) ∧
      (∀ key : κ, lirs.status? key ≠ none → (lirs.get key).2.hotKeys = lirs.hotAfter key) ∧
      (lirs.lirCount = lirs.lirQuota → ∀ keys : List κ, lirs.Scans keys →
        (lirs.run (keys.map .put)).hotKeys = lirs.hotKeys) := by
  have hvalid := h.valid
  have hcapacity : 0 < lirs.capacity := by
    rw [h.sameQuotas.capacity_eq]
    exact hpos
  refine ⟨?_, ?_, ?_⟩
  · intro key
    exact (hvalid.put_serves hcapacity key).2.hotKeys_eq
  · intro key htracked
    exact (hvalid.get_serves htracked).2.hotKeys_eq
  · intro hfull keys hscans
    exact hvalid.hotKeys_scan hcapacity hfull hscans

theorem create_half : create (κ := Nat) 3 0.5 none = .ok (ofQuotas 3 1 1 3) := by
  have hratio : ¬(!(0.5 : Float).isFinite || (0.5 : Float) <= 0 || (0.5 : Float) >= 1) = true := by
    decide
  have hlir : lirShare 3 0.5 = 1 := by decide
  have hresident : residentShare 3 0.5 = 1 := by decide
  rw [create, if_neg hratio, hlir, hresident]
  rfl

/-- Key 2 is HIR and still in the stack when it is written again, so it takes the place of key 1;
a scan leaves key 1 alone. -/
theorem hotKeys_after_access_half :
    ((ofQuotas 3 1 1 3).run [.put 1, .put 2]).Reachable (κ := Nat) 3 0.5 none ∧ 1 ≤ 3 ∧
      (((ofQuotas 3 1 1 3).run [.put 1, .put 2]).put 2).2.hotKeys = [2] ∧
      (((ofQuotas 3 1 1 3).run [.put 1, .put 2]).run ([5, 6, 7].map .put)).hotKeys = [1] := by
  have hreachable : ((ofQuotas 3 1 1 3).run [.put 1, .put 2]).Reachable (κ := Nat) 3 0.5 none :=
    ⟨_, _, create_half, rfl⟩
  obtain ⟨hput, -, hscan⟩ := hotKeys_after_access hreachable (by decide)
  have hscans : ((ofQuotas 3 1 1 3).run [.put 1, .put 2]).Scans [5, 6, 7] :=
    ⟨by cbv, by cbv, by cbv, trivial⟩
  refine ⟨hreachable, by decide, ?_, ?_⟩
  · rw [hput 2]
    cbv
  · rw [hscan (by cbv) _ hscans]
    cbv

/-! ## The place of every key -/

/-- A key is where its status says, and nowhere else. -/
def Located (lirs : Lirs κ) (key : κ) : Prop :=
  match lirs.status? key with
  | none => key ∉ lirs.keys .stack ∧ key ∉ lirs.keys .queue ∧ key ∉ lirs.keys .ghosts
  | some .lir => key ∈ lirs.keys .stack ∧ key ∉ lirs.keys .queue ∧ key ∉ lirs.keys .ghosts
  | some .resident => key ∈ lirs.keys .queue ∧ key ∉ lirs.keys .ghosts
  | some .nonResident =>
    key ∈ lirs.keys .stack ∧ key ∈ lirs.keys .ghosts ∧ key ∉ lirs.keys .queue

/-- The index has exactly the nodes, each under its own key, and the handles of the nodes are those
under which the lists hold them. -/
structure Linked (lirs : Lirs κ) : Prop where
  node_of_index : ∀ (key : κ) (id : SlotId), lirs.index[key]? = some id →
    ∃ node, lirs.nodes.get? id = some node ∧ node.key = key
  index_of_node : ∀ (id : SlotId) (node : LirsNode κ), lirs.nodes.get? id = some node →
    lirs.index[node.key]? = some id
  size_nodes : lirs.nodes.size = lirs.index.size
  handle_iff : ∀ (id : SlotId) (node : LirsNode κ), lirs.nodes.get? id = some node →
    ∀ (lane : LirsLane) (handle : SlotId),
      node.handles.get lane = some handle ↔ (lirs.lanes.get lane).get? handle = some id
  node_of_handle : ∀ (lane : LirsLane) (handle id : SlotId),
    (lirs.lanes.get lane).get? handle = some id → ∃ node, lirs.nodes.get? id = some node

/-- An access to a node finds it, finds a LIR one in the stack, and finds a remembered one still in
the stack when room has been made for it. -/
def Accessible (lirs : Lirs κ) (id : SlotId) : Prop :=
  ∃ node, lirs.nodes.get? id = some node ∧
    (node.status = .lir → node.handles.stack.isSome = true) ∧
    (node.status = .nonResident →
      ((lirs.reinstate id node.handles.ghosts).handle? .stack id).isSome = true)

omit [LawfulBEq κ] in
theorem Arranged.located (h : lirs.Arranged none) (key : κ) : lirs.Located key := by
  have hfits := h.placed.fits key
  change LirsView.Fits (lirs.status? key) (key ∈ lirs.keys .stack) (key ∈ lirs.keys .queue)
    (key ∈ lirs.keys .ghosts) _ at hfits
  revert hfits
  unfold Located
  rcases lirs.status? key with _ | _ | _ | _ <;> simp +contextual [LirsView.Fits]

omit [LawfulBEq κ] in
theorem Wired.linked (h : lirs.Wired) : lirs.Linked where
  node_of_index _ _ hid := h.exists_node hid
  index_of_node id node hnode := by
    rw [h.index_iff, key?, hnode, Option.map_some]
  size_nodes := h.size_index.symm
  handle_iff id node hnode lane handle := by
    rw [← handle?_eq hnode, (h.indexedBy lane).get?_eq_some_iff]
  node_of_handle lane handle id hget := by
    obtain ⟨node, hnode, -⟩ :=
      Option.bind_eq_some_iff.1 ((h.indexedBy lane).get?_eq_some_iff.1 hget)
    exact ⟨node, hnode⟩

theorem Valid.accessible (h : lirs.Valid) {id : SlotId} (hid : lirs.index[key]? = some id) :
    lirs.Accessible id := by
  obtain ⟨node, hnode, -⟩ := h.arranged.wired.exists_node hid
  have hstatus : lirs.status? key = some node.status := by
    rw [status?_eq hid, hnode, Option.map_some]
  refine ⟨node, hnode, ?_, ?_⟩
  · intro hlir
    rw [hlir] at hstatus
    exact (h.arranged.wired.isSome_handle_iff hid hnode .stack).2
      (h.arranged.placed.not_mem_of_lir hstatus).1
  · intro hremembered
    rw [hremembered] at hstatus
    obtain ⟨handle, hhandle⟩ := h.exists_handle_reinstate hid hstatus
    rw [handle?_eq hnode] at hhandle
    exact Option.isSome_iff_exists.2 ⟨handle, hhandle⟩

omit [LawfulBEq κ] in
/-- HIR keys are there only once the LIR quota is used up. -/
theorem Valid.lirCount_of_length_ne_zero (h : lirs.Valid)
    (hne : lirs.length .queue ≠ 0 ∨ lirs.length .ghosts ≠ 0) : lirs.lirCount = lirs.lirQuota := by
  rw [h.arranged.wired.length_eq, h.arranged.wired.length_eq] at hne
  rcases hne with hqueue | hghosts
  · obtain ⟨key, hmem⟩ := List.exists_mem_of_length_pos (Nat.pos_of_ne_zero hqueue)
    exact h.full key (.inl hmem)
  · obtain ⟨key, hmem⟩ := List.exists_mem_of_length_pos (Nat.pos_of_ne_zero hghosts)
    exact h.full key (.inr hmem)

/-- Each tracked key is in one of three places, which share out what is tracked and keep their
bounds; HIR keys are there only once the LIR quota is used up, and LIR keys become no fewer; the
key of a call that succeeds is resident; writes and reads of tracked keys do succeed; and index,
nodes and handles agree, so that an access never misses what it looks for. -/
theorem located_of_reachable (h : lirs.Reachable capacity lirRatio maxNonResident)
    (hpos : 1 ≤ capacity) :
    (∀ key : κ, lirs.Located key) ∧
      lirs.index.size = lirs.lirCount + lirs.length .queue + lirs.length .ghosts ∧
      lirs.index.size ≤ capacity + maxNonResident.getD capacity ∧
      lirs.length .queue ≤ residentShare capacity lirRatio ∧
      (lirs.length .queue ≠ 0 ∨ lirs.length .ghosts ≠ 0 →
        lirs.lirCount = lirShare capacity lirRatio) ∧
      (∀ calls : List (Call κ), lirs.lirCount ≤ (lirs.run calls).lirCount) ∧
      (∀ call : Call κ, (lirs.serve call).1 = .ok () →
        (lirs.serve call).2.status? call.key = some .lir ∨
          (lirs.serve call).2.status? call.key = some .resident) ∧
      (∀ key : κ, (lirs.put key).1 = .ok () ∧
        (lirs.get key).1 = if lirs.index.contains key then .ok () else .error .notFound) ∧
      lirs.Linked ∧
      ∀ (key : κ) (id : SlotId), lirs.index[key]? = some id → lirs.Accessible id := by
  have hvalid := h.valid
  have hquotas := h.sameQuotas
  have hcapacity : lirs.capacity = capacity := hquotas.capacity_eq
  have hlirQuota : lirs.lirQuota = lirShare capacity lirRatio := hquotas.lirQuota_eq
  have hpos' : 0 < lirs.capacity := by rwa [hcapacity]
  have hsize := hvalid.size_index
  have hresident : lirs.lirCount + lirs.length .queue ≤ lirs.capacity := hvalid.size_le
  have hqueue : lirs.length .queue ≤ residentShare capacity lirRatio :=
    hvalid.queue_le.trans_eq hquotas.residentQuota_eq
  have hghosts : lirs.length .ghosts ≤ maxNonResident.getD capacity :=
    hvalid.ghosts_le.trans_eq hquotas.ghostQuota_eq
  have hbound : lirs.index.size ≤ capacity + maxNonResident.getD capacity := by
    rw [hsize, ← hcapacity]
    exact Nat.add_le_add hresident (hghosts.trans_eq (by rw [hcapacity]))
  have hfull (hne : lirs.length .queue ≠ 0 ∨ lirs.length .ghosts ≠ 0) :
      lirs.lirCount = lirShare capacity lirRatio :=
    (hvalid.lirCount_of_length_ne_zero hne).trans hlirQuota
  refine ⟨hvalid.arranged.located, hsize, hbound, hqueue, hfull, hvalid.lirCount_le_run hpos',
    ?_, ?_, hvalid.arranged.wired.linked, fun _ _ hid ↦ hvalid.accessible hid⟩
  · intro call hok
    exact hvalid.resident_of_ok hpos' hok
  · intro key
    exact ⟨(hvalid.put_serves hpos' key).1, (hvalid.get key).2.2⟩

/-- Key 1 is LIR here, key 2 is remembered and key 3 is resident HIR; the node of key 2 is 1. -/
theorem located_of_reachable_half :
    ((ofQuotas 3 1 1 3).run [.put 1, .put 2, .put 3]).Reachable (κ := Nat) 3 0.5 none ∧ 1 ≤ 3 ∧
      ((ofQuotas 3 1 1 3).run [.put 1, .put 2, .put 3]).Located 2 ∧
      ((ofQuotas 3 1 1 3).run [.put 1, .put 2, .put 3]).index.size = 3 ∧
      ((ofQuotas 3 1 1 3).run [.put 1, .put 2, .put 3]).index[2]? = some 1 ∧
      ((ofQuotas 3 1 1 3).run [.put 1, .put 2, .put 3]).Accessible 1 := by
  have hreachable : ((ofQuotas 3 1 1 3).run [.put 1, .put 2, .put 3]).Reachable (κ := Nat) 3 0.5
      none := ⟨_, _, create_half, rfl⟩
  obtain ⟨hlocated, hsize, -, -, -, -, -, -, -, haccessible⟩ :=
    located_of_reachable hreachable (by decide)
  have hid : ((ofQuotas 3 1 1 3).run [.put 1, .put 2, .put 3]).index[2]? = some 1 := by
    cbv
  refine ⟨hreachable, by decide, hlocated 2, ?_, hid, haccessible 2 1 hid⟩
  rw [hsize]
  cbv

end KeyHeat.Lirs

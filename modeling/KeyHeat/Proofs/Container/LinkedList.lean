import KeyHeat.Proofs.Container.Ends
import KeyHeat.Proofs.Container.SlotPool

/-!
# Linked lists as lists of handles and values

A linked list stands for a list of distinct handles with their values, front to back. Everything
is said from one end: read from that end, the link of a node toward it names the node met just
before. Since both ends are covered, attaching and detaching need one argument each, and the walk
and the self-check follow from it.
-/

namespace KeyHeat

@[simp]
theorem LinkedNode.links_setLink {α : Type} (node : LinkedNode α) (side : End)
    (link : Option SlotId) : (node.setLink side link).links = node.links.set side link := rfl

namespace LinkedList

variable {α : Type}

/-- The handle met first in a list of handles with values. -/
def headId (entries : List (SlotId × α)) : Option SlotId := entries.head?.map (·.1)

/-- The handle met last. -/
def lastId (entries : List (SlotId × α)) : Option SlotId := entries.getLast?.map (·.1)

/-- The links of the nodes in `entries` are those of a list with these handles and values. -/
structure Linked (list : LinkedList α) (entries : List (SlotId × α)) : Prop where
  nodup : (entries.map (·.1)).Nodup
  ends : ∀ side, list.endId side = headId (side.orient entries)
  link : ∀ side before id value after, side.orient entries = before ++ (id, value) :: after →
    ∃ links, list.nodes.get? id = some ⟨value, links⟩ ∧ links.get side = lastId before

/-- The list stands for `entries`: its nodes are linked that way and there are no others. -/
structure Holds (list : LinkedList α) (entries : List (SlotId × α)) : Prop
    extends Linked list entries where
  pool : list.nodes.Valid
  length_eq : list.length = entries.length
  absent : ∀ id, id ∉ entries.map (·.1) → list.nodes.get? id = none

@[simp]
theorem headId_nil : headId ([] : List (SlotId × α)) = none := rfl

@[simp]
theorem headId_cons (entry : SlotId × α) (entries : List (SlotId × α)) :
    headId (entry :: entries) = some entry.1 := rfl

@[simp]
theorem lastId_nil : lastId ([] : List (SlotId × α)) = none := rfl

theorem lastId_reverse (entries : List (SlotId × α)) : lastId entries.reverse = headId entries := by
  simp [lastId, headId]

theorem headId_eq_some {entries : List (SlotId × α)} {id : SlotId} (h : headId entries = some id) :
    ∃ value rest, entries = (id, value) :: rest := by
  cases entries with
  | nil => cases h
  | cons entry rest =>
    obtain ⟨id', value⟩ := entry
    obtain rfl : id' = id := by simpa using h
    exact ⟨value, rest, rfl⟩

theorem lastId_cons_of_ne_nil (entry : SlotId × α) {entries : List (SlotId × α)}
    (h : entries ≠ []) : lastId (entry :: entries) = lastId entries := by
  rw [lastId, lastId, List.getLast?_cons_of_ne_nil h]

theorem lastId_append_of_ne_nil (before : List (SlotId × α)) {entries : List (SlotId × α)}
    (h : entries ≠ []) : lastId (before ++ entries) = lastId entries := by
  rw [lastId, lastId, List.getLast?_append_of_ne_nil _ h]

theorem headId_append (entries rest : List (SlotId × α)) :
    headId (entries ++ rest) = (headId entries).or (headId rest) := by
  cases entries <;> simp [headId]

/-- A node with both its neighbours, seen from one end. -/
theorem Linked.node {list : LinkedList α} {entries : List (SlotId × α)} (h : Linked list entries)
    {side : End} {before after : List (SlotId × α)} {id : SlotId} {value : α}
    (heq : side.orient entries = before ++ (id, value) :: after) :
    ∃ links, list.nodes.get? id = some ⟨value, links⟩ ∧ links.get side = lastId before ∧
      links.get side.opposite = headId after := by
  obtain ⟨links, hget, hbefore⟩ := h.link side before id value after heq
  obtain ⟨links', hget', hafter⟩ := h.link side.opposite after.reverse id value before.reverse (by
    rw [End.orient_opposite, heq]
    simp)
  rw [hget] at hget'
  cases hget'
  exact ⟨links, hget, hbefore, by rw [hafter, lastId_reverse]⟩

theorem Linked.nodup_orient {list : LinkedList α} {entries : List (SlotId × α)}
    (h : Linked list entries) (side : End) : ((side.orient entries).map (·.1)).Nodup := by
  rw [← End.orient_map, End.nodup_orient]
  exact h.nodup

theorem headId_eq_some_iff {before after : List (SlotId × α)} {id : SlotId} {value : α}
    (hnodup : ((before ++ (id, value) :: after).map (·.1)).Nodup) :
    headId (before ++ (id, value) :: after) = some id ↔ before = [] := by
  cases before with
  | nil => simp
  | cons entry before =>
    simp only [List.cons_append, List.map_cons, List.nodup_cons, List.mem_map, List.mem_append,
      List.mem_cons] at hnodup
    have hne : entry.1 ≠ id := fun hid ↦ hnodup.1 ⟨(id, value), .inr (.inl rfl), hid.symm⟩
    simp [hne]

theorem Linked.endId_eq_iff {list : LinkedList α} {entries : List (SlotId × α)}
    (h : Linked list entries) {side : End} {before after : List (SlotId × α)} {id : SlotId}
    {value : α} (heq : side.orient entries = before ++ (id, value) :: after) :
    list.endId side = some id ↔ before = [] := by
  have hnodup := h.nodup_orient side
  rw [heq] at hnodup
  rw [h.ends, heq, headId_eq_some_iff hnodup]

/-- Only the nodes of the list and its ends matter. -/
theorem Linked.congr {list list' : LinkedList α} {entries : List (SlotId × α)}
    (h : Linked list entries) (hends : list'.ends = list.ends)
    (hnodes : ∀ id ∈ entries.map (·.1), list'.nodes.get? id = list.nodes.get? id) :
    Linked list' entries where
  nodup := h.nodup
  ends side := by
    rw [endId, hends]
    exact h.ends side
  link side before id value after heq := by
    rw [hnodes id (List.mem_map_of_mem (End.mem_of_orient_eq heq))]
    exact h.link side before id value after heq

/-! ## Attaching a node -/

theorem attach_of_none {list : LinkedList α} {side : End} (hend : list.endId side = none)
    (id : SlotId) :
    list.attach id side =
      ⟨list.nodes.modify id fun node ↦ ⟨node.value, none, none⟩,
        (list.ends.set side.opposite (some id)).set side (some id)⟩ := by
  unfold endId at hend
  cases side <;> simp only [attach, hend] <;> rfl

theorem attach_of_some {list : LinkedList α} {side : End} {neighbour : SlotId}
    (hend : list.endId side = some neighbour) (id : SlotId) :
    list.attach id side =
      ⟨(list.nodes.modify id fun node ↦
          ⟨node.value, (Ends.mk none none).set side.opposite (some neighbour)⟩).modify
          neighbour (·.setLink side (some id)), list.ends.set side (some id)⟩ := by
  unfold endId at hend
  simp only [attach, hend]

theorem endId_attach (list : LinkedList α) (id : SlotId) (side other : End) :
    (list.attach id side).endId other =
      if other = side ∨ list.endId side = none then some id else list.endId other := by
  cases hend : list.endId side with
  | none =>
    rw [attach_of_none hend]
    rcases End.eq_or_eq_opposite side other with rfl | rfl <;> simp [endId, Ends.get_set]
  | some neighbour =>
    rw [attach_of_some hend]
    simp [endId, Ends.get_set]

theorem get?_attach_self {list : LinkedList α} {id : SlotId} {side : End} {value : α}
    {links : Ends (Option SlotId)} (hid : list.nodes.get? id = some ⟨value, links⟩)
    (hne : list.endId side ≠ some id) :
    (list.attach id side).nodes.get? id =
      some ⟨value, (Ends.mk none none).set side.opposite (list.endId side)⟩ := by
  cases hend : list.endId side with
  | none =>
    rw [attach_of_none hend, SlotPool.get?_modify, if_pos rfl, hid]
    cases side <;> rfl
  | some neighbour =>
    have hother : id ≠ neighbour := fun heq ↦ hne (by rw [hend, heq])
    rw [attach_of_some hend, SlotPool.get?_modify, if_neg hother, SlotPool.get?_modify,
      if_pos rfl, hid]
    rfl

theorem get?_attach_of_ne (list : LinkedList α) {id other : SlotId} (side : End)
    (hne : other ≠ id) :
    (list.attach id side).nodes.get? other = (list.nodes.get? other).map fun node ↦
      if list.endId side = some other then node.setLink side (some id) else node := by
  cases hend : list.endId side with
  | none =>
    rw [attach_of_none hend, SlotPool.get?_modify, if_neg hne]
    simp
  | some neighbour =>
    rw [attach_of_some hend, SlotPool.get?_modify, SlotPool.get?_modify, if_neg hne]
    by_cases hother : other = neighbour
    · simp [hother]
    · simp [hother, Ne.symm hother]

theorem length_attach (list : LinkedList α) (id : SlotId) (side : End) :
    (list.attach id side).length = list.length := by
  cases hend : list.endId side with
  | none =>
    rw [attach_of_none hend]
    rfl
  | some neighbour =>
    rw [attach_of_some hend]
    rfl

theorem valid_nodes_attach {list : LinkedList α} (h : list.nodes.Valid) (id : SlotId)
    (side : End) : (list.attach id side).nodes.Valid := by
  cases hend : list.endId side with
  | none =>
    rw [attach_of_none hend]
    exact h.modify _ _
  | some neighbour =>
    rw [attach_of_some hend]
    exact (h.modify _ _).modify _ _

theorem Linked.endId_ne {list : LinkedList α} {entries : List (SlotId × α)}
    (h : Linked list entries) {id : SlotId} (hnot : id ∉ entries.map (·.1)) (side : End) :
    list.endId side ≠ some id := by
  rw [h.ends]
  intro hhead
  obtain ⟨value, rest, heq⟩ := headId_eq_some hhead
  have hmem : (id, value) ∈ entries := by
    rw [← side.mem_orient, heq]
    exact List.mem_cons_self
  exact hnot (List.mem_map_of_mem hmem)

/-- At the end where a node has been attached, the links are those of the longer list. -/
theorem Linked.link_attach {list : LinkedList α} {entries : List (SlotId × α)}
    (h : Linked list entries) {id : SlotId} {value : α} {links : Ends (Option SlotId)}
    (hid : list.nodes.get? id = some ⟨value, links⟩) (hnot : id ∉ entries.map (·.1))
    {side : End} {before after : List (SlotId × α)} {id' : SlotId} {value' : α}
    (heq : (id, value) :: side.orient entries = before ++ (id', value') :: after) :
    ∃ links', (list.attach id side).nodes.get? id' = some ⟨value', links'⟩ ∧
      links'.get side = lastId before := by
  rcases List.cons_eq_append_iff.1 heq with ⟨rfl, hnode⟩ | ⟨before', rfl, htail⟩
  · cases hnode
    exact ⟨_, get?_attach_self hid (h.endId_ne hnot side), by cases side <;> rfl⟩
  · obtain ⟨links', hget, hlink⟩ := h.link side before' id' value' after htail
    have hne := ne_of_mem_of_not_mem
      (List.mem_map_of_mem (f := (·.1)) (End.mem_of_orient_eq htail)) hnot
    rw [get?_attach_of_ne list side hne, hget]
    simp only [h.endId_eq_iff htail, Option.map_some]
    by_cases hbefore : before' = []
    · subst hbefore
      exact ⟨_, rfl, by simp [Ends.get_set, lastId]⟩
    · rw [if_neg hbefore, lastId_cons_of_ne_nil _ hbefore]
      exact ⟨links', rfl, hlink⟩

/-- At the other end, the links are those of the longer list, too. -/
theorem Linked.link_attach_opposite {list : LinkedList α} {entries : List (SlotId × α)}
    (h : Linked list entries) {id : SlotId} {value : α} {links : Ends (Option SlotId)}
    (hid : list.nodes.get? id = some ⟨value, links⟩) (hnot : id ∉ entries.map (·.1))
    {side : End} {before after : List (SlotId × α)} {id' : SlotId} {value' : α}
    (heq : side.opposite.orient entries ++ [(id, value)] = before ++ (id', value') :: after) :
    ∃ links', (list.attach id side).nodes.get? id' = some ⟨value', links'⟩ ∧
      links'.get side.opposite = lastId before := by
  rcases append_eq_append_cons heq with ⟨between, hfirst, -⟩ | ⟨between, rfl, hlast⟩
  · obtain ⟨links', hget, hlink⟩ := h.link side.opposite before id' value' between hfirst
    have hne := ne_of_mem_of_not_mem
      (List.mem_map_of_mem (f := (·.1)) (End.mem_of_orient_eq hfirst)) hnot
    rw [get?_attach_of_ne list side hne, hget, Option.map_some]
    split_ifs
    · exact ⟨_, rfl, by rw [Ends.get_set, if_neg side.opposite_ne, hlink]⟩
    · exact ⟨links', rfl, hlink⟩
  · obtain ⟨rfl, hnode, -⟩ : between = [] ∧ (id', value') = (id, value) ∧ after = [] := by
      cases between <;> simp_all
    cases hnode
    refine ⟨_, get?_attach_self hid (h.endId_ne hnot side), ?_⟩
    rw [Ends.get_set, if_pos rfl, h.ends, List.append_nil, End.orient_opposite, lastId_reverse]

/-- A node that is in the pool but not in the list joins it at an end. -/
theorem Linked.attach {list : LinkedList α} {entries : List (SlotId × α)}
    (h : Linked list entries) {id : SlotId} {value : α} {links : Ends (Option SlotId)}
    (hid : list.nodes.get? id = some ⟨value, links⟩) (hnot : id ∉ entries.map (·.1))
    (side : End) : Linked (list.attach id side) (side.cons (id, value) entries) where
  nodup := by
    rw [End.map_cons, End.nodup_cons]
    exact ⟨hnot, h.nodup⟩
  ends other := by
    rw [endId_attach, h.ends, h.ends]
    rcases End.eq_or_eq_opposite side other with rfl | rfl
    · simp
    · rw [End.opposite_orient_cons, headId_append, End.orient_opposite]
      cases hentries : side.orient entries with
      | nil => simp
      | cons entry rest => simp [End.opposite_ne, headId]
  link other before id' value' after heq := by
    rcases End.eq_or_eq_opposite side other with rfl | rfl
    · rw [End.orient_cons] at heq
      exact h.link_attach hid hnot heq
    · rw [End.opposite_orient_cons] at heq
      exact h.link_attach_opposite hid hnot heq

/-! ## Detaching a node -/

theorem endId_bypass (list : LinkedList α) (links : Ends (Option SlotId)) (side other : End) :
    (list.bypass links side).endId other =
      if other = side ∧ links.get side = none then links.get side.opposite
      else list.endId other := by
  unfold bypass
  cases hlink : links.get side with
  | none => simp [endId, Ends.get_set]
  | some neighbour => simp [endId]

theorem get?_bypass (list : LinkedList α) (links : Ends (Option SlotId)) (side : End)
    (id : SlotId) :
    (list.bypass links side).nodes.get? id = (list.nodes.get? id).map fun node ↦
      if links.get side = some id then node.setLink side.opposite (links.get side.opposite)
      else node := by
  unfold bypass
  cases hlink : links.get side with
  | none => simp
  | some neighbour =>
    simp only [SlotPool.get?_modify, Option.some.injEq, eq_comm (a := neighbour)]
    split_ifs <;> simp

theorem length_bypass (list : LinkedList α) (links : Ends (Option SlotId)) (side : End) :
    (list.bypass links side).length = list.length := by
  unfold bypass
  cases links.get side <;> rfl

theorem valid_nodes_bypass {list : LinkedList α} (h : list.nodes.Valid)
    (links : Ends (Option SlotId)) (side : End) : (list.bypass links side).nodes.Valid := by
  unfold bypass
  cases links.get side with
  | none => exact h
  | some neighbour => exact h.modify _ _

theorem endId_detach (list : LinkedList α) (id : SlotId) (links : Ends (Option SlotId))
    (side : End) :
    (list.detach id links).endId side =
      if links.get side = none then links.get side.opposite else list.endId side := by
  change ((list.bypass links .front).bypass links .back).endId side = _
  rw [endId_bypass, endId_bypass]
  cases side <;> simp [End.opposite]

theorem get?_detach_self {list : LinkedList α} {id : SlotId} {node : LinkedNode α}
    (hid : list.nodes.get? id = some node) (links : Ends (Option SlotId)) :
    (list.detach id links).nodes.get? id = some ⟨node.value, none, none⟩ := by
  unfold detach
  rw [SlotPool.get?_modify, if_pos rfl, get?_bypass, get?_bypass, hid]
  simp only [Option.map_some]
  split_ifs <;> rfl

theorem get?_detach_of_ne {list : LinkedList α} {id other : SlotId} {value : α}
    {links' : Ends (Option SlotId)} (hget : list.nodes.get? other = some ⟨value, links'⟩)
    (hne : other ≠ id) (links : Ends (Option SlotId)) :
    ∃ links'', (list.detach id links).nodes.get? other = some ⟨value, links''⟩ ∧
      ∀ side, links''.get side =
        if links.get side.opposite = some other then links.get side else links'.get side := by
  unfold detach
  rw [SlotPool.get?_modify, if_neg hne, get?_bypass, get?_bypass, hget]
  simp only [Option.map_some]
  by_cases hfront : links.get .front = some other <;>
    by_cases hback : links.get .back = some other <;>
    simp only [hfront, hback, if_true, if_false] <;>
    refine ⟨_, rfl, fun side ↦ ?_⟩ <;>
    cases side <;> simp [End.opposite, hfront, hback, Ends.get_set]

theorem get?_detach_eq_none {list : LinkedList α} {other : SlotId}
    (hget : list.nodes.get? other = none) (id : SlotId) (links : Ends (Option SlotId)) :
    (list.detach id links).nodes.get? other = none := by
  unfold detach
  rw [SlotPool.get?_modify, get?_bypass, get?_bypass, hget]
  simp

theorem length_detach (list : LinkedList α) (id : SlotId) (links : Ends (Option SlotId)) :
    (list.detach id links).length = list.length := by
  change ((list.bypass links .front).bypass links .back).length = list.length
  rw [length_bypass, length_bypass]

theorem valid_nodes_detach {list : LinkedList α} (h : list.nodes.Valid) (id : SlotId)
    (links : Ends (Option SlotId)) : (list.detach id links).nodes.Valid :=
  (valid_nodes_bypass (valid_nodes_bypass h links .front) links .back).modify _ _

theorem mem_ids_of_headId {entries : List (SlotId × α)} {id : SlotId}
    (h : headId entries = some id) : id ∈ entries.map (·.1) := by
  obtain ⟨value, rest, rfl⟩ := headId_eq_some h
  exact List.mem_cons_self

/-- Seen from one end, the links around a detached node skip it. -/
theorem Linked.link_detach {list : LinkedList α} {entries : List (SlotId × α)}
    (h : Linked list entries) {side : End} {first second : List (SlotId × α)} {id : SlotId}
    {value : α} {links : Ends (Option SlotId)}
    (hall : side.orient entries = first ++ (id, value) :: second)
    (hid : list.nodes.get? id = some ⟨value, links⟩) {before after : List (SlotId × α)}
    {id' : SlotId} {value' : α} (heq : first ++ second = before ++ (id', value') :: after) :
    ∃ links', (list.detach id links).nodes.get? id' = some ⟨value', links'⟩ ∧
      links'.get side = lastId before := by
  obtain ⟨links₀, hget, hside, hopposite⟩ := h.node hall
  rw [hid] at hget
  cases hget
  have hnodup := h.nodup_orient side
  rw [hall] at hnodup
  rcases append_eq_append_cons heq with ⟨between, rfl, -⟩ | ⟨between, rfl, rfl⟩
  · -- The other node is met before the one detached, and keeps its link toward this end.
    have hall' : side.orient entries =
        before ++ (id', value') :: (between ++ (id, value) :: second) := by
      rw [hall, List.append_assoc, List.cons_append]
    obtain ⟨links', hget', hlink⟩ := h.link side before id' value' _ hall'
    rw [List.map_append] at hnodup
    have hfar : id' ∉ ((id, value) :: second).map (·.1) :=
      List.disjoint_of_nodup_append hnodup (by simp)
    have hne : id' ≠ id := fun heq ↦ hfar (heq ▸ List.mem_cons_self)
    have hhead : headId second ≠ some id' := fun hhead ↦
      hfar (List.mem_cons_of_mem _ (mem_ids_of_headId hhead))
    obtain ⟨links'', hget'', hlinks⟩ := get?_detach_of_ne hget' hne links
    refine ⟨links'', hget'', ?_⟩
    rw [hlinks, hopposite, if_neg hhead, hlink]
  · -- It is met afterwards, and if it was the next one, its link now skips the one detached.
    have hall' : side.orient entries =
        (first ++ (id, value) :: between) ++ (id', value') :: after := by
      rw [hall, List.append_assoc, List.cons_append]
    obtain ⟨links', hget', hlink⟩ := h.link side _ id' value' after hall'
    have hne : id' ≠ id := by
      rintro rfl
      simp [List.nodup_append] at hnodup
    obtain ⟨links'', hget'', hlinks⟩ := get?_detach_of_ne hget' hne links
    refine ⟨links'', hget'', ?_⟩
    have hsecond : ((between ++ (id', value') :: after).map (·.1)).Nodup := by
      apply List.Nodup.sublist _ hnodup
      apply List.Sublist.map
      exact (List.sublist_cons_self _ _).trans (List.sublist_append_right _ _)
    simp only [hlinks, hopposite, headId_eq_some_iff hsecond]
    by_cases hbetween : between = []
    · rw [if_pos hbetween, hside, hbetween, List.append_nil]
    · rw [if_neg hbetween, hlink, lastId_append_of_ne_nil _ hbetween,
        lastId_append_of_ne_nil _ (List.cons_ne_nil _ _), lastId_cons_of_ne_nil _ hbetween]

/-- A node in the middle leaves the list to its neighbours. -/
theorem Linked.detach {list : LinkedList α} {before after : List (SlotId × α)} {id : SlotId}
    {value : α} (h : Linked list (before ++ (id, value) :: after))
    {links : Ends (Option SlotId)} (hid : list.nodes.get? id = some ⟨value, links⟩) :
    Linked (list.detach id links) (before ++ after) where
  nodup := by
    have hsub : (before ++ after).Sublist (before ++ (id, value) :: after) :=
      (List.sublist_cons_self _ _).append_left _
    exact h.nodup.sublist (hsub.map _)
  ends side := by
    obtain ⟨first, second, hall, hrest⟩ := side.orient_append_cons before after (id, value)
    obtain ⟨links₀, hget, hside, hopposite⟩ := h.node hall
    rw [hid] at hget
    cases hget
    rw [endId_detach, hside, hopposite, h.ends, hall, hrest]
    cases first with
    | nil => simp
    | cons entry first => simp [lastId]
  link side before' id' value' after' heq := by
    obtain ⟨first, second, hall, hrest⟩ := side.orient_append_cons before after (id, value)
    exact h.link_detach hall hid (hrest.symm.trans heq)

/-! ## Reading a list -/

theorem Linked.exists_node {list : LinkedList α} {entries : List (SlotId × α)}
    (h : Linked list entries) {id : SlotId} {value : α} (hmem : (id, value) ∈ entries) :
    ∃ links, list.nodes.get? id = some ⟨value, links⟩ := by
  obtain ⟨before, after, rfl⟩ := List.append_of_mem hmem
  obtain ⟨links, hget, -⟩ := h.link .front before id value after rfl
  exact ⟨links, hget⟩

theorem Holds.get?_eq_some_iff {list : LinkedList α} {entries : List (SlotId × α)}
    (h : Holds list entries) {id : SlotId} {value : α} :
    list.get? id = some value ↔ (id, value) ∈ entries := by
  constructor
  · intro hget
    have hid : id ∈ entries.map (·.1) := by
      by_contra hnot
      simp [LinkedList.get?, h.absent id hnot] at hget
    obtain ⟨⟨id', value'⟩, hmem, rfl⟩ := List.mem_map.1 hid
    obtain ⟨links, hnode⟩ := h.exists_node hmem
    obtain rfl : value' = value := by simpa [LinkedList.get?, hnode] using hget
    exact hmem
  · intro hmem
    obtain ⟨links, hnode⟩ := h.exists_node hmem
    simp [LinkedList.get?, hnode]

theorem Holds.peek?_eq {list : LinkedList α} {entries : List (SlotId × α)}
    (h : Holds list entries) (side : End) :
    list.peek? side = (side.orient entries).head?.map (·.2) := by
  rw [peek?, h.ends]
  cases heq : side.orient entries with
  | nil => rfl
  | cons entry rest =>
    have hmem : entry ∈ entries := by
      rw [← side.mem_orient, heq]
      exact List.mem_cons_self
    exact h.get?_eq_some_iff.2 hmem

/-- The links lead from any node through all that lie beyond it, and no further. -/
theorem Linked.walk_eq {list : LinkedList α} {entries : List (SlotId × α)}
    (h : Linked list entries) {side : End} (before : List (SlotId × α))
    {after : List (SlotId × α)} (heq : side.orient entries = before ++ after) {fuel : Nat}
    (hfuel : after.length ≤ fuel) :
    list.walk side.opposite fuel (headId after) = after := by
  induction after generalizing before fuel with
  | nil => cases fuel <;> rfl
  | cons entry after ih =>
    obtain ⟨id, value⟩ := entry
    obtain ⟨links, hget, -, hnext⟩ := h.node heq
    cases fuel with
    | zero => cases hfuel
    | succ fuel =>
      have hrest := ih (before ++ [(id, value)]) (by rw [heq]; simp)
        (Nat.le_of_succ_le_succ hfuel)
      simp only [headId_cons, walk, hget, hnext, hrest]

theorem Holds.entries_eq {list : LinkedList α} {entries : List (SlotId × α)}
    (h : Holds list entries) : list.entries = entries := by
  rw [LinkedList.entries, h.length_eq, h.ends]
  have hread : End.front.orient entries = [] ++ entries := rfl
  exact h.walk_eq [] hread (Nat.le_refl _)

theorem Holds.toList_eq {list : LinkedList α} {entries : List (SlotId × α)}
    (h : Holds list entries) : list.toList = entries.map (·.2) := by
  rw [toList, h.entries_eq]

/-! ## Operations -/

theorem holds_empty : Holds (empty : LinkedList α) [] where
  nodup := List.nodup_nil
  ends side := by cases side <;> rfl
  link side before id value after heq := by
    rw [End.orient_nil] at heq
    simp at heq
  pool := SlotPool.valid_empty
  length_eq := rfl
  absent id _ := SlotPool.get?_empty id

theorem Holds.push {list : LinkedList α} {entries : List (SlotId × α)} (h : Holds list entries)
    (side : End) (value : α) :
    (list.push side value).1 ∉ entries.map (·.1) ∧
      Holds (list.push side value).2 (side.cons ((list.push side value).1, value) entries) := by
  obtain ⟨nodes, ends⟩ := list
  have hread := SlotPool.get?_insert h.pool (⟨value, none, none⟩ : LinkedNode α)
  have hfresh := SlotPool.get?_fst_insert h.pool (⟨value, none, none⟩ : LinkedNode α)
  have hvalid := h.pool.insert (⟨value, none, none⟩ : LinkedNode α)
  have hsize := SlotPool.size_insert nodes (⟨value, none, none⟩ : LinkedNode α)
  generalize hinsert : nodes.insert (⟨value, none, none⟩ : LinkedNode α) = inserted at *
  obtain ⟨id, nodes'⟩ := inserted
  have hpush : (LinkedList.mk nodes ends).push side value =
      (id, attach ⟨nodes', ends⟩ id side) := by
    simp only [LinkedList.push, hinsert]
  rw [hpush]
  have hnot : id ∉ entries.map (·.1) := by
    intro hmem
    obtain ⟨⟨id', value'⟩, hentry, rfl⟩ := List.mem_map.1 hmem
    obtain ⟨links, hnode⟩ := h.exists_node hentry
    rw [hnode] at hfresh
    cases hfresh
  have hlinked : Linked ⟨nodes', ends⟩ entries := by
    refine h.toLinked.congr rfl ?_
    intro other hother
    rw [hread, if_neg (ne_of_mem_of_not_mem hother hnot)]
  have hid : nodes'.get? id = some ⟨value, none, none⟩ := by
    rw [hread, if_pos rfl]
  refine ⟨hnot, hlinked.attach hid hnot side, valid_nodes_attach hvalid id side, ?_, ?_⟩
  · rw [length_attach, End.length_cons, ← h.length_eq]
    exact hsize
  · intro other hother
    rw [End.map_cons, End.mem_cons, not_or] at hother
    rw [get?_attach_of_ne _ side hother.1, hread, if_neg hother.1, h.absent other hother.2]
    rfl

theorem Holds.detach {list : LinkedList α} {before after : List (SlotId × α)} {id : SlotId}
    {value : α} (h : Holds list (before ++ (id, value) :: after)) :
    ∃ links, list.nodes.get? id = some ⟨value, links⟩ ∧
      Linked (list.detach id links) (before ++ after) ∧ id ∉ (before ++ after).map (·.1) ∧
      ∀ other, other ∉ (before ++ after).map (·.1) → other ≠ id →
        (list.detach id links).nodes.get? other = none := by
  obtain ⟨links, hget⟩ := h.exists_node (List.mem_append_right _ List.mem_cons_self)
  have hnot : id ∉ (before ++ after).map (·.1) := by
    have hnodup := h.nodup
    rw [List.map_append, List.map_cons, List.nodup_middle, List.nodup_cons] at hnodup
    rw [List.map_append]
    exact hnodup.1
  refine ⟨links, hget, h.toLinked.detach hget, hnot, ?_⟩
  intro other hother hne
  apply get?_detach_eq_none
  apply h.absent
  simp only [List.map_append, List.map_cons, List.mem_append, List.mem_cons] at hother ⊢
  tauto

theorem Holds.erase {list : LinkedList α} {before after : List (SlotId × α)} {id : SlotId}
    {value : α} (h : Holds list (before ++ (id, value) :: after)) :
    Holds (list.erase id) (before ++ after) := by
  obtain ⟨links, hget, hlinked, hnot, habsent⟩ := h.detach
  have herase : list.erase id =
      ⟨(list.detach id links).nodes.erase id, (list.detach id links).ends⟩ := by
    simp only [LinkedList.erase, LinkedList.remove, hget]
  have hlinked' : Linked ⟨(list.detach id links).nodes.erase id, (list.detach id links).ends⟩
      (before ++ after) := by
    refine hlinked.congr rfl ?_
    intro other hother
    rw [SlotPool.get?_erase, if_neg (ne_of_mem_of_not_mem hother hnot)]
  have hlength : ((list.detach id links).nodes.erase id).size = (before ++ after).length := by
    calc
      _ = (list.detach id links).length - 1 := SlotPool.size_erase (get?_detach_self hget links)
      _ = (before ++ (id, value) :: after).length - 1 := by rw [length_detach, h.length_eq]
      _ = (before ++ after).length := by simp
  rw [herase]
  refine ⟨hlinked', (valid_nodes_detach h.pool id links).erase id, hlength, ?_⟩
  intro other hother
  rw [SlotPool.get?_erase]
  split_ifs with heq
  · rfl
  · exact habsent other hother heq

theorem Holds.relink {list : LinkedList α} {before after : List (SlotId × α)} {id : SlotId}
    {value : α} (h : Holds list (before ++ (id, value) :: after)) (side : End) :
    Holds (list.relink id side) (side.cons (id, value) (before ++ after)) := by
  by_cases hend : list.endId side = some id
  · rw [LinkedList.relink, LinkedList.move, if_pos hend]
    cases side with
    | front =>
      have hfront : End.front.orient (before ++ (id, value) :: after) =
          before ++ (id, value) :: after := rfl
      obtain rfl : before = [] := (h.endId_eq_iff hfront).1 hend
      exact h
    | back =>
      have hback : End.back.orient (before ++ (id, value) :: after) =
          after.reverse ++ (id, value) :: before.reverse := by
        simp [End.orient]
      obtain rfl : after = [] := List.reverse_eq_nil_iff.1 ((h.endId_eq_iff hback).1 hend)
      simpa [End.cons] using h
  · obtain ⟨links, hget, hlinked, hnot, habsent⟩ := h.detach
    have hself := get?_detach_self hget links
    have hlength : ((list.detach id links).attach id side).length =
        (side.cons (id, value) (before ++ after)).length := by
      rw [length_attach, length_detach, h.length_eq, End.length_cons]
      simp
      omega
    rw [LinkedList.relink, LinkedList.move, if_neg hend]
    simp only [hget]
    refine ⟨hlinked.attach hself hnot side,
      valid_nodes_attach (valid_nodes_detach h.pool id links) id side, hlength, ?_⟩
    intro other hother
    rw [End.map_cons, End.mem_cons, not_or] at hother
    rw [get?_attach_of_ne _ side hother.1, habsent other hother.2 hother.1]
    rfl

/-! ## Answers -/

theorem Holds.get?_of_split {list : LinkedList α} {before after : List (SlotId × α)} {id : SlotId}
    {value : α} (h : Holds list (before ++ (id, value) :: after)) : list.get? id = some value :=
  h.get?_eq_some_iff.2 (List.mem_append_right _ List.mem_cons_self)

/-- A removal answers with what a read would have found. -/
theorem remove_eq (list : LinkedList α) (id : SlotId) :
    list.remove id = (list.get? id, list.erase id) := by
  unfold erase remove get?
  cases list.nodes.get? id <;> rfl

theorem Holds.remove_of_missing {list : LinkedList α} {entries : List (SlotId × α)}
    (h : Holds list entries) {id : SlotId} (hmissing : id ∉ entries.map (·.1)) :
    list.remove id = (none, list) := by
  simp only [remove, h.absent id hmissing]

theorem Holds.move_of_split {list : LinkedList α} {before after : List (SlotId × α)} {id : SlotId}
    {value : α} (h : Holds list (before ++ (id, value) :: after)) (side : End) :
    list.move id side = (true, list.relink id side) := by
  obtain ⟨links, hget, -⟩ := h.detach
  unfold LinkedList.relink move
  split_ifs
  · rfl
  · simp only [hget]

theorem Holds.move_of_missing {list : LinkedList α} {entries : List (SlotId × α)}
    (h : Holds list entries) {id : SlotId} (hmissing : id ∉ entries.map (·.1)) (side : End) :
    list.move id side = (false, list) := by
  rw [move, if_neg (h.endId_ne hmissing side)]
  simp only [h.absent id hmissing]

theorem Holds.pop_nil {list : LinkedList α} (h : Holds list []) (side : End) :
    list.pop side = (none, list) := by
  have hend : list.endId side = none := by
    rw [h.ends, End.orient_nil, headId_nil]
  simp only [pop, hend]

theorem Holds.pop_cons {list : LinkedList α} {id : SlotId} {value : α}
    {rest : List (SlotId × α)} {side : End} (h : Holds list (side.cons (id, value) rest)) :
    list.pop side = (some value, list.erase id) ∧ Holds (list.erase id) rest := by
  obtain ⟨before, after, hentries, hrest⟩ := side.exists_cons_eq_append (id, value) rest
  have hend : list.endId side = some id := by
    rw [h.ends, End.orient_cons, headId_cons]
  rw [hentries] at h
  refine ⟨?_, hrest ▸ h.erase⟩
  simp only [pop, hend, remove_eq, h.get?_of_split]

/-! ## The self-check -/

theorem Linked.checkWalk_eq {list : LinkedList α} {entries : List (SlotId × α)}
    (h : Linked list entries) (before : List (SlotId × α)) {after : List (SlotId × α)}
    (heq : entries = before ++ after) (walked : Nat) :
    list.checkWalk walked (lastId before) after.length (headId after) =
      .ok (walked + after.length, lastId entries) := by
  induction after generalizing before walked with
  | nil => simp [checkWalk, heq]
  | cons entry after ih =>
    obtain ⟨id, value⟩ := entry
    have hread : End.front.orient entries = before ++ (id, value) :: after := heq
    obtain ⟨links, hget, hfront, hback⟩ := h.node hread
    have hrest := ih (before ++ [(id, value)]) (by rw [heq]; simp) (walked + 1)
    have hlast : lastId (before ++ [(id, value)]) = some id := by simp [lastId]
    rw [hlast] at hrest
    have hfront' : links.front = lastId before := hfront
    have hback' : links.back = headId after := hback
    simp only [headId_cons, List.length_cons, checkWalk, hget, hfront', hback', ne_eq,
      not_true_eq_false, if_false, hrest]
    rw [Nat.add_assoc, Nat.add_comm 1]

theorem Holds.checkLinks_eq {list : LinkedList α} {entries : List (SlotId × α)}
    (h : Holds list entries) : list.checkLinks = .ok () := by
  have hwalk := h.checkWalk_eq [] rfl 0
  have hlast : list.endId .back = lastId entries := by
    rw [h.ends, ← lastId_reverse]
    simp [End.orient]
  have hfront : list.endId .front = headId entries := h.ends .front
  rw [checkLinks, hfront, h.length_eq, hlast]
  simp only [lastId_nil, Nat.zero_add] at hwalk
  rw [hwalk]
  simp [bind, Except.bind, pure, Except.pure]

end LinkedList

end KeyHeat

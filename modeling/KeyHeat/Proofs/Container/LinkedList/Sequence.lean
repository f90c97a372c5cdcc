import KeyHeat.Proofs.Container.LinkedList

/-!
# Linked lists answer as sequences with handles

Seen from outside, a linked list is a sequence of values under distinct handles, open at both ends.
A value is added at either end under a new handle, and a handle of the list takes its value out or
moves it to an end, with the order of the others kept. All other handles are refused, be they freed
or from elsewhere. The links agree with the sequence from both ends, whatever was requested before.
-/

namespace KeyHeat.LinkedList

variable {α : Type}

/-! ## Requests -/

/-- A request to a linked list. -/
inductive Request (α : Type) where
  | push (side : End) (value : α)
  | pop (side : End)
  | remove (id : SlotId)
  | relink (id : SlotId) (side : End)
  deriving DecidableEq, Repr

/-- What a request is answered. -/
inductive Reply (α : Type) where
  /-- The handle of the value that was added. -/
  | added (id : SlotId)
  /-- The value that was taken out, if there was one. -/
  | taken (value? : Option α)
  /-- Whether the handle was moved. -/
  | moved (done : Bool)
  deriving DecidableEq, Repr

/-- The answer of a list to a request, and the list that it leaves. -/
def serve (list : LinkedList α) : Request α → Reply α × LinkedList α
  | .push side value => (.added (list.push side value).1, (list.push side value).2)
  | .pop side => (.taken (list.pop side).1, (list.pop side).2)
  | .remove id => (.taken (list.remove id).1, (list.remove id).2)
  | .relink id side => (.moved (list.move id side).1, (list.move id side).2)

/-- The list after some requests, one after the other. -/
def run (list : LinkedList α) : List (Request α) → LinkedList α
  | [] => list
  | request :: requests => run (list.serve request).2 requests

/-- The requests with their answers, in order. -/
def transcript (list : LinkedList α) : List (Request α) → List (Request α × Reply α)
  | [] => []
  | request :: requests =>
    (request, (list.serve request).1) :: transcript (list.serve request).2 requests

/-! ## Sequences -/

/-- The handles of a sequence. -/
def handles (entries : List (SlotId × α)) : List SlotId := entries.map (·.1)

/-- What a sequence may answer to a request, and the sequence that it becomes. -/
inductive Answers (entries : List (SlotId × α)) :
    Request α → Reply α → List (SlotId × α) → Prop
  | push (side : End) (value : α) (id : SlotId) (hnew : id ∉ handles entries) :
    Answers entries (.push side value) (.added id) (side.cons (id, value) entries)
  | popNone (side : End) (hempty : entries = []) :
    Answers entries (.pop side) (.taken none) entries
  | pop (side : End) (id : SlotId) (value : α) (rest : List (SlotId × α))
    (hentries : entries = side.cons (id, value) rest) :
    Answers entries (.pop side) (.taken (some value)) rest
  | removeNone (id : SlotId) (hmissing : id ∉ handles entries) :
    Answers entries (.remove id) (.taken none) entries
  | remove (id : SlotId) (value : α) (before after : List (SlotId × α))
    (hentries : entries = before ++ (id, value) :: after) :
    Answers entries (.remove id) (.taken (some value)) (before ++ after)
  | relinkNone (id : SlotId) (side : End) (hmissing : id ∉ handles entries) :
    Answers entries (.relink id side) (.moved false) entries
  | relink (id : SlotId) (side : End) (value : α) (before after : List (SlotId × α))
    (hentries : entries = before ++ (id, value) :: after) :
    Answers entries (.relink id side) (.moved true) (side.cons (id, value) (before ++ after))

/-- Requests to a sequence with its answers, one after the other, and the sequence at the end. -/
inductive Dialogue :
    List (SlotId × α) → List (Request α × Reply α) → List (SlotId × α) → Prop
  | nil (entries : List (SlotId × α)) : Dialogue entries [] entries
  | cons {entries next last : List (SlotId × α)} {request : Request α} {reply : Reply α}
    {rest : List (Request α × Reply α)} (hanswers : Answers entries request reply next)
    (hrest : Dialogue next rest last) : Dialogue entries ((request, reply) :: rest) last

/-! ## One request -/

variable {list : LinkedList α} {entries : List (SlotId × α)}

theorem Holds.contains_iff (h : Holds list entries) {id : SlotId} :
    list.contains id = true ↔ id ∈ handles entries := by
  have hnode : list.contains id = (list.get? id).isSome := (Option.isSome_map ..).symm
  rw [hnode, Option.isSome_iff_exists, handles, List.mem_map]
  constructor
  · rintro ⟨value, hvalue⟩
    exact ⟨(id, value), h.get?_eq_some_iff.1 hvalue, rfl⟩
  · rintro ⟨⟨id', value⟩, hmem, rfl⟩
    exact ⟨value, h.get?_eq_some_iff.2 hmem⟩

/-- The place of a handle of the list. -/
theorem exists_split {id : SlotId} (hmem : id ∈ handles entries) :
    ∃ before value after, entries = before ++ (id, value) :: after := by
  obtain ⟨⟨id', value⟩, hentry, rfl⟩ := List.mem_map.1 hmem
  obtain ⟨before, after, rfl⟩ := List.append_of_mem hentry
  exact ⟨before, value, after, rfl⟩

/-- A list answers as the sequence may that it stands for, and stands for what that becomes. -/
theorem Holds.serve (h : Holds list entries) (request : Request α) :
    ∃ next, Answers entries request (list.serve request).1 next ∧
      Holds (list.serve request).2 next := by
  cases request with
  | push side value =>
    obtain ⟨hnew, hpush⟩ := h.push side value
    exact ⟨_, .push side value _ hnew, hpush⟩
  | pop side =>
    rcases side.eq_nil_or_cons entries with rfl | ⟨⟨id, value⟩, rest, rfl⟩
    · rw [LinkedList.serve, h.pop_nil]
      exact ⟨[], .popNone side rfl, h⟩
    · obtain ⟨hpop, hrest⟩ := h.pop_cons
      rw [LinkedList.serve, hpop]
      exact ⟨rest, .pop side id value rest rfl, hrest⟩
  | remove id =>
    by_cases hmem : id ∈ handles entries
    · obtain ⟨before, value, after, rfl⟩ := exists_split hmem
      rw [LinkedList.serve, list.remove_eq, h.get?_of_split]
      exact ⟨_, .remove id value before after rfl, h.erase⟩
    · rw [LinkedList.serve, h.remove_of_missing hmem]
      exact ⟨_, .removeNone id hmem, h⟩
  | relink id side =>
    by_cases hmem : id ∈ handles entries
    · obtain ⟨before, value, after, rfl⟩ := exists_split hmem
      rw [LinkedList.serve, h.move_of_split]
      exact ⟨_, .relink id side value before after rfl, h.relink side⟩
    · rw [LinkedList.serve, h.move_of_missing hmem]
      exact ⟨_, .relinkNone id side hmem, h⟩

theorem Holds.dialogue (h : Holds list entries) (requests : List (Request α)) :
    ∃ last, Dialogue entries (list.transcript requests) last ∧ Holds (list.run requests) last := by
  induction requests generalizing list entries with
  | nil => exact ⟨entries, .nil entries, h⟩
  | cons request requests ih =>
    obtain ⟨next, hanswers, hnext⟩ := h.serve request
    obtain ⟨last, hrest, hlast⟩ := ih hnext
    exact ⟨last, .cons hanswers hrest, hlast⟩

/-! ## What a list tells -/

/-- What a list that stands for a sequence tells of it. -/
structure Tells (entries : List (SlotId × α)) (list : LinkedList α) : Prop where
  nodup : (handles entries).Nodup
  entries_eq : list.entries = entries
  toList_eq : list.toList = entries.map (·.2)
  length_eq : list.length = entries.length
  endId_eq : ∀ side, list.endId side = (side.orient entries).head?.map (·.1)
  peek?_eq : ∀ side, list.peek? side = (side.orient entries).head?.map (·.2)
  get?_eq : ∀ id value, list.get? id = some value ↔ (id, value) ∈ entries
  contains_iff : ∀ id, list.contains id = true ↔ id ∈ handles entries
  /-- A request about a handle that is not in the list leaves it as it is. -/
  unchanged : ∀ id, id ∉ handles entries →
    list.erase id = list ∧ ∀ side, list.relink id side = list
  checkLinks_eq : list.checkLinks = .ok ()
  /-- The links lead from either end through all nodes to the other, where they end. -/
  walk_eq : ∀ side fuel, entries.length ≤ fuel →
    list.walk (End.opposite side) fuel (list.endId side) = side.orient entries

theorem Holds.tells (h : Holds list entries) : Tells entries list where
  nodup := h.nodup
  entries_eq := h.entries_eq
  toList_eq := h.toList_eq
  length_eq := h.length_eq
  endId_eq := h.ends
  peek?_eq := h.peek?_eq
  get?_eq _ _ := h.get?_eq_some_iff
  contains_iff _ := h.contains_iff
  unchanged _ hmissing := ⟨congrArg (·.2) (h.remove_of_missing hmissing),
    fun side ↦ congrArg (·.2) (h.move_of_missing hmissing side)⟩
  checkLinks_eq := h.checkLinks_eq
  walk_eq side fuel hfuel := by
    have hread : side.orient entries = [] ++ side.orient entries := rfl
    rw [h.ends]
    apply h.walk_eq [] hread
    rwa [End.length_orient]

/-- Whatever is requested of an empty list, its answers are those of a sequence that starts out
empty, and in the end it tells of that sequence. -/
theorem answers_as_sequence (requests : List (Request α)) :
    ∃ entries, Dialogue [] ((empty : LinkedList α).transcript requests) entries ∧
      Tells entries (empty.run requests) := by
  obtain ⟨entries, hdialogue, hlast⟩ := (holds_empty (α := α)).dialogue requests
  exact ⟨entries, hdialogue, hlast.tells⟩

/-- A handle that is not in the list does nothing. -/
example : (empty.run [.push .front 1, .push .back 2, .relink 0 .back, .remove 7]).entries =
    [(1, 2), (0, 1)] := by
  decide

end KeyHeat.LinkedList

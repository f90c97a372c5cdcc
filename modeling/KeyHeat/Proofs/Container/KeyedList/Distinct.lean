import KeyHeat.Proofs.Container.KeyedList
import KeyHeat.Proofs.Container.LinkedList.Sequence

/-!
# Keyed lists answer as lists of distinct keys

Seen from outside, a keyed list is a list without repetitions that is open at both ends. A key that
is pushed comes to an end, wherever it was before; one that is touched does so only if it is there.
Keys are taken out at the ends or by name. The linked list of the keys and the index to its nodes
are changed separately, but they agree whatever was requested before.
-/

namespace KeyHeat.KeyedList

variable {κ : Type}

/-! ## Requests -/

/-- A request to a keyed list. -/
inductive Request (κ : Type) where
  | push (side : End) (key : κ)
  | touch (side : End) (key : κ)
  | pop (side : End)
  | remove (key : κ)
  deriving DecidableEq, Repr

/-- What a request is answered. -/
inductive Reply (κ : Type) where
  | done
  /-- Whether the key was there. -/
  | found (present : Bool)
  /-- The key that was taken out, if there was one. -/
  | taken (key? : Option κ)
  deriving DecidableEq, Repr

/-! ## Lists of distinct keys -/

variable [BEq κ]

/-- The answer of a list of distinct keys to a request, and the list that it becomes. -/
def answer (list : List κ) : Request κ → Reply κ × List κ
  | .push side key => (.done, side.cons key (list.erase key))
  | .touch side key =>
    if list.contains key then (.found true, side.cons key (list.erase key))
    else (.found false, list)
  | .pop .front => (.taken list.head?, list.tail)
  | .pop .back => (.taken list.getLast?, list.dropLast)
  | .remove key => (.found (list.contains key), list.erase key)

/-- What becomes of a list by some requests, one after the other. -/
def listAfter (list : List κ) (requests : List (Request κ)) : List κ :=
  requests.foldl (fun list request ↦ (answer list request).2) list

/-! ## Runs -/

variable [Hashable κ]

/-- The answer of a keyed list to a request, and what the request leaves. -/
def serve (keys : KeyedList κ) : Request κ → Reply κ × KeyedList κ
  | .push side key => (.done, keys.push side key)
  | .touch side key => (.found (keys.move side key).1, (keys.move side key).2)
  | .pop side => (.taken (keys.pop side).1, (keys.pop side).2)
  | .remove key => (.found (keys.remove key).1, (keys.remove key).2)

/-- The keyed list after some requests, one after the other. -/
def run (keys : KeyedList κ) (requests : List (Request κ)) : KeyedList κ :=
  requests.foldl (fun keys request ↦ (keys.serve request).2) keys

/-! ## One request -/

variable {keys : KeyedList κ}

variable [LawfulBEq κ]

theorem Valid.contains_eq (h : keys.Valid) (key : κ) :
    keys.contains key = keys.toList.contains key := by
  rw [Bool.eq_iff_iff, h.contains_iff, List.contains_iff_mem]

/-- A keyed list answers as the list of its keys. -/
theorem Valid.serve_fst (h : keys.Valid) (request : Request κ) :
    (keys.serve request).1 = (answer keys.toList request).1 := by
  cases request with
  | push side key => rfl
  | touch side key =>
    rw [serve, h.move_eq, h.contains_eq, answer]
    split_ifs with hmem
    · rw [hmem]
    · rw [Bool.eq_false_iff.2 hmem]
  | pop side =>
    cases side with
    | front => rw [serve, answer, h.fst_pop, h.peek?_front]
    | back => rw [serve, answer, h.fst_pop, h.peek?_back]
  | remove key => rw [serve, answer, h.remove_eq, h.contains_eq]

theorem Valid.serve (h : keys.Valid) (request : Request κ) : (keys.serve request).2.Valid := by
  cases request with
  | push side key => exact h.push side key
  | touch side key => exact h.touch side key
  | pop side => exact h.pop side
  | remove key => exact h.erase key

/-- The keys change as a list of them does. -/
theorem Valid.toList_serve (h : keys.Valid) (request : Request κ) :
    (keys.serve request).2.toList = (answer keys.toList request).2 := by
  cases request with
  | push side key => exact h.toList_push side key
  | touch side key =>
    rw [answer, KeyedList.serve]
    split_ifs with hmem
    · exact h.toList_touch side (List.contains_iff_mem.1 hmem)
    · rw [h.move_of_not_mem side (hmem ∘ List.contains_iff_mem.2)]
  | pop side =>
    cases side with
    | front => exact h.toList_pop_front
    | back => exact h.toList_pop_back
  | remove key => exact h.toList_erase key

theorem Valid.run (h : keys.Valid) (requests : List (Request κ)) :
    (keys.run requests).Valid ∧
      (keys.run requests).toList = listAfter keys.toList requests := by
  induction requests generalizing keys with
  | nil => exact ⟨h, rfl⟩
  | cons request requests ih =>
    obtain ⟨hvalid, hlist⟩ := ih (h.serve request)
    rw [h.toList_serve] at hlist
    exact ⟨hvalid, hlist⟩

/-! ## What a keyed list tells -/

/-- What a keyed list that stands for a list of distinct keys tells of it. -/
structure Tells (list : List κ) (keys : KeyedList κ) : Prop where
  nodup : list.Nodup
  toList_eq : keys.toList = list
  length_eq : keys.length = list.length
  isEmpty_iff : keys.isEmpty = true ↔ list = []
  contains_eq : ∀ key, keys.contains key = list.contains key
  peek?_front : keys.peek? .front = list.head?
  peek?_back : keys.peek? .back = list.getLast?
  /-- The next request is answered as the list answers it. -/
  serve_fst : ∀ request, (keys.serve request).1 = (answer list request).1
  /-- Each key is linked to a node of its own. -/
  isLinked_eq : ∀ key, keys.isLinked key = list.contains key
  /-- A key that is popped leaves the linked list and the index, as one that is removed does. -/
  pop_eq : ∀ side, keys.pop side = (keys.peek? side, match keys.peek? side with
    | some key => keys.erase key
    | none => keys)
  check_eq : keys.check = .ok ()

theorem Valid.tells (h : keys.Valid) : Tells keys.toList keys where
  nodup := h.nodup_toList
  toList_eq := rfl
  length_eq := h.length_eq
  isEmpty_iff := h.isEmpty_iff
  contains_eq := h.contains_eq
  peek?_front := h.peek?_front
  peek?_back := h.peek?_back
  serve_fst := h.serve_fst
  isLinked_eq key := (h.isLinked_eq key).trans (h.contains_eq key)
  pop_eq := h.pop_eq
  check_eq := h.check_eq

/-- Whatever was requested of an empty keyed list, it answers as a list of distinct keys to which
the same was done. -/
theorem tells_of_run (requests : List (Request κ)) :
    Tells (listAfter [] requests) ((empty : KeyedList κ).run requests) := by
  obtain ⟨hvalid, hlist⟩ := (valid_empty (κ := κ)).run requests
  rw [toList_empty] at hlist
  rw [← hlist]
  exact hvalid.tells

/-- The slot of key 1 is taken by key 3, and key 1 comes back under another. -/
theorem tells_of_run_recycled :
    let requests : List (Request Nat) :=
      [.push .front 1, .push .front 2, .remove 1, .push .front 3, .push .front 1, .touch .front 2]
    Tells [2, 1, 3] (empty.run requests) := by
  intro requests
  exact tells_of_run requests

end KeyHeat.KeyedList

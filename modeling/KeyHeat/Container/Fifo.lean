/-!
# First-in-first-out queues

A queue as two lists: the front one is read from its head, the back one is pushed onto its head
and turned over when the front runs out. The front is empty only if the whole queue is, so the
oldest element is always at hand. `toList` is the queue from the oldest element to the newest,
and the lemmas say what each operation does to it.
-/

namespace KeyHeat

structure Fifo (α : Type) where
  front : List α
  back : List α
  length : Nat
  length_eq : length = front.length + back.length
  back_eq_nil : front = [] → back = []

namespace Fifo

variable {α : Type}

def empty : Fifo α := ⟨[], [], 0, rfl, fun _ ↦ rfl⟩

instance : Inhabited (Fifo α) := ⟨empty⟩

/-- The elements, oldest first. -/
def toList (queue : Fifo α) : List α := queue.front ++ queue.back.reverse

/-- The elements, newest first. -/
def newestFirst (queue : Fifo α) : List α := queue.back ++ queue.front.reverse

/-- The queue of the given elements, oldest first. -/
def ofList (elements : List α) : Fifo α := ⟨elements, [], elements.length, rfl, fun _ ↦ rfl⟩

/-- The oldest element. -/
def peek? (queue : Fifo α) : Option α := queue.front.head?

/-- Adds `value` as the newest element. -/
def push (queue : Fifo α) (value : α) : Fifo α :=
  match queue with
  | ⟨[], _, _, _, _⟩ => ofList [value]
  | ⟨head :: front, back, length, h, _⟩ =>
    ⟨head :: front, value :: back, length + 1, by
      simp only [h, List.length_cons]; omega, by simp⟩

/-- The queue without its oldest element. -/
def tail (queue : Fifo α) : Fifo α :=
  match queue with
  | ⟨[], _, _, _, _⟩ => empty
  | ⟨[_], back, length, h, _⟩ =>
    ⟨back.reverse, [], length - 1, by
      simp only [h, List.length_cons, List.length_nil, List.length_reverse]; omega, fun _ ↦ rfl⟩
  | ⟨_ :: next :: front, back, length, h, _⟩ =>
    ⟨next :: front, back, length - 1, by
      simp only [h, List.length_cons]; omega, by simp⟩

/-- The elements that satisfy `keep`, in the same order. -/
def filter (queue : Fifo α) (keep : α → Bool) : Fifo α :=
  ofList (queue.toList.filter keep)

/-! ## The view as a list -/

@[simp]
theorem toList_empty : (empty : Fifo α).toList = [] := rfl

@[simp]
theorem toList_ofList (elements : List α) : (ofList elements).toList = elements := by
  simp [ofList, toList]

@[simp]
theorem toList_push (queue : Fifo α) (value : α) :
    (queue.push value).toList = queue.toList ++ [value] := by
  obtain ⟨front, back, length, h, hback⟩ := queue
  cases front with
  | nil => simp [push, toList, ofList, hback rfl]
  | cons head front => simp [push, toList]

@[simp]
theorem toList_tail (queue : Fifo α) : queue.tail.toList = queue.toList.tail := by
  obtain ⟨front, back, length, h, hback⟩ := queue
  match front with
  | [] => simp [tail, toList, empty, hback rfl]
  | [_] => simp [tail, toList]
  | _ :: _ :: _ => simp [tail, toList]

@[simp]
theorem toList_filter (queue : Fifo α) (keep : α → Bool) :
    (queue.filter keep).toList = queue.toList.filter keep := by
  simp [filter]

theorem peek?_eq_head? (queue : Fifo α) : queue.peek? = queue.toList.head? := by
  obtain ⟨front, back, length, h, hback⟩ := queue
  cases front with
  | nil => simp [peek?, toList, hback rfl]
  | cons head front => simp [peek?, toList]

theorem length_toList (queue : Fifo α) : queue.toList.length = queue.length := by
  simp [toList, queue.length_eq]

theorem newestFirst_eq (queue : Fifo α) : queue.newestFirst = queue.toList.reverse := by
  simp [newestFirst, toList]

end Fifo

end KeyHeat

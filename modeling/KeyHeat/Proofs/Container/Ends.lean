import KeyHeat.Container.LinkedList
import Mathlib.Data.List.Nodup

/-!
# The two ends of a list

A list can be read from either of its ends. What holds of one end is carried to the other by
reversing the list.
-/

namespace KeyHeat

/-- An element of a list in two parts is in one of them. -/
theorem append_eq_append_cons {β : Type} {first second before after : List β} {element : β}
    (h : first ++ second = before ++ element :: after) :
    (∃ between, first = before ++ element :: between ∧ after = between ++ second) ∨
      ∃ between, before = first ++ between ∧ second = between ++ element :: after := by
  rcases List.append_eq_append_iff.1 h with ⟨between, hbefore, hsecond⟩ | ⟨rest, hfirst, hrest⟩
  · exact .inr ⟨between, hbefore, hsecond⟩
  · rcases List.cons_eq_append_iff.1 hrest with ⟨rfl, hsecond⟩ | ⟨between, rfl, hafter⟩
    · exact .inr ⟨[], by simpa using hfirst.symm, hsecond⟩
    · exact .inl ⟨between, hfirst, hafter⟩

/-- A part of a list without repetitions that keeps the last element ends in it. -/
theorem getLast?_of_sublist {β : Type} {elements part : List β} {last : β}
    (hnodup : elements.Nodup) (hsub : part.Sublist elements)
    (hlast : elements.getLast? = some last) (hmem : last ∈ part) : part.getLast? = some last := by
  obtain ⟨init, rfl⟩ := List.getLast?_eq_some_iff.1 hlast
  obtain ⟨before, after, rfl, hbefore, hafter⟩ := List.sublist_append_iff.1 hsub
  rcases List.sublist_singleton.1 hafter with rfl | rfl
  · rw [List.nodup_append'] at hnodup
    rw [List.append_nil] at hmem
    exact absurd (List.mem_singleton_self last) (hnodup.2.2 (hbefore.subset hmem))
  · exact List.getLast?_concat

theorem erase_eq_dropLast {β : Type} [BEq β] [LawfulBEq β] {elements : List β} {last : β}
    (hnodup : elements.Nodup) (hlast : elements.getLast? = some last) :
    elements.erase last = elements.dropLast := by
  obtain ⟨init, rfl⟩ := List.getLast?_eq_some_iff.1 hlast
  rw [List.nodup_append_comm, List.singleton_append, List.nodup_cons] at hnodup
  rw [List.erase_append_right _ hnodup.1, List.erase_cons_head, List.append_nil,
    List.dropLast_concat]

/-- Moving an element to the front of a list keeps the last one, unless it is the one moved. -/
theorem getLast?_cons_erase {β : Type} [BEq β] [LawfulBEq β] {elements : List β}
    {last element : β} (hlast : elements.getLast? = some last) (hne : element ≠ last) :
    (element :: elements.erase element).getLast? = some last := by
  obtain ⟨init, rfl⟩ := List.getLast?_eq_some_iff.1 hlast
  by_cases hmem : element ∈ init
  · rw [List.erase_append_left _ hmem, ← List.cons_append]
    exact List.getLast?_concat
  · rw [List.erase_append_right _ hmem, List.erase_of_not_mem (by simpa using hne),
      ← List.cons_append]
    exact List.getLast?_concat

namespace End

variable {β : Type}

/-- The elements in the order in which they are met from this end. -/
def orient (side : End) (elements : List β) : List β :=
  match side with
  | .front => elements
  | .back => elements.reverse

/-- The list with one more element at this end. -/
def cons (side : End) (element : β) (elements : List β) : List β :=
  match side with
  | .front => element :: elements
  | .back => elements ++ [element]

theorem opposite_ne (side : End) : side.opposite ≠ side := by
  cases side <;> decide

theorem eq_or_eq_opposite (side other : End) : other = side ∨ other = side.opposite := by
  cases side <;> cases other <;> decide

@[simp]
theorem orient_nil (side : End) : side.orient ([] : List β) = [] := by
  cases side <;> rfl

theorem orient_opposite (side : End) (elements : List β) :
    side.opposite.orient elements = (side.orient elements).reverse := by
  cases side <;> simp [orient, opposite]

@[simp]
theorem mem_orient (side : End) {elements : List β} {element : β} :
    element ∈ side.orient elements ↔ element ∈ elements := by
  cases side <;> simp [orient]

theorem orient_map {γ : Type} (side : End) (f : β → γ) (elements : List β) :
    side.orient (elements.map f) = (side.orient elements).map f := by
  cases side <;> simp [orient]

@[simp]
theorem length_orient (side : End) (elements : List β) :
    (side.orient elements).length = elements.length := by
  cases side <;> simp [orient]

theorem nodup_orient {side : End} {elements : List β} :
    (side.orient elements).Nodup ↔ elements.Nodup := by
  cases side with
  | front => rfl
  | back => exact List.nodup_reverse

@[simp]
theorem orient_cons (side : End) (element : β) (elements : List β) :
    side.orient (side.cons element elements) = element :: side.orient elements := by
  cases side <;> simp [orient, cons]

theorem opposite_orient_cons (side : End) (element : β) (elements : List β) :
    side.opposite.orient (side.cons element elements) =
      side.opposite.orient elements ++ [element] := by
  cases side <;> simp [orient, cons, opposite]

@[simp]
theorem mem_cons {side : End} {element other : β} {elements : List β} :
    other ∈ side.cons element elements ↔ other = element ∨ other ∈ elements := by
  cases side <;> simp [cons, or_comm]

@[simp]
theorem length_cons (side : End) (element : β) (elements : List β) :
    (side.cons element elements).length = elements.length + 1 := by
  cases side <;> simp [cons]

theorem map_cons {γ : Type} (side : End) (f : β → γ) (element : β) (elements : List β) :
    (side.cons element elements).map f = side.cons (f element) (elements.map f) := by
  cases side <;> simp [cons]

theorem nodup_cons {side : End} {element : β} {elements : List β} :
    (side.cons element elements).Nodup ↔ element ∉ elements ∧ elements.Nodup := by
  cases side with
  | front => exact List.nodup_cons
  | back => exact List.nodup_append_comm.trans List.nodup_cons

theorem mem_of_orient_eq {side : End} {elements before after : List β} {element : β}
    (heq : side.orient elements = before ++ element :: after) : element ∈ elements := by
  rw [← side.mem_orient, heq]
  exact List.mem_append_right _ List.mem_cons_self

/-- Taking an element out of the middle, seen from either end. -/
theorem orient_append_cons (side : End) (before after : List β) (element : β) :
    ∃ first second, side.orient (before ++ element :: after) = first ++ element :: second ∧
      side.orient (before ++ after) = first ++ second := by
  cases side with
  | front => exact ⟨before, after, rfl, rfl⟩
  | back => exact ⟨after.reverse, before.reverse, by simp [orient], by simp [orient]⟩

/-- A list is empty or has an element at this end. -/
theorem eq_nil_or_cons (side : End) (elements : List β) :
    elements = [] ∨ ∃ element rest, elements = side.cons element rest := by
  cases side with
  | front =>
    cases elements with
    | nil => exact .inl rfl
    | cons element rest => exact .inr ⟨element, rest, rfl⟩
  | back =>
    rcases List.eq_nil_or_concat elements with hnil | ⟨rest, element, hconcat⟩
    · exact .inl hnil
    · exact .inr ⟨element, rest, by simpa [cons] using hconcat⟩

theorem exists_cons_eq_append (side : End) (element : β) (rest : List β) :
    ∃ before after, side.cons element rest = before ++ element :: after ∧
      rest = before ++ after := by
  cases side with
  | front => exact ⟨[], rest, rfl, rfl⟩
  | back => exact ⟨rest, [], rfl, (List.append_nil rest).symm⟩

end End

namespace Ends

variable {α : Type}

theorem get_set (pair : Ends α) (side other : End) (value : α) :
    (pair.set side value).get other = if other = side then value else pair.get other := by
  cases side <;> cases other <;> rfl

end Ends

end KeyHeat

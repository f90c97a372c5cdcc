import KeyHeat.Proofs.Container.LinkedList

/-!
# Linked lists whose values know their handles

Where values are moved and removed by handles that are kept elsewhere, one handle for each value,
the handles have to stay in step with the list. While they do, the list holds its values once, a
value has a handle exactly if it is in the list, and to move or remove what the handle leads to is
to move or remove the value.
-/

namespace KeyHeat.LinkedList

variable {β : Type} {list : LinkedList β} {handle? handle?' : β → Option SlotId} {value : β}
  {id : SlotId}

/-- The handles of the values are those of the nodes that hold them. -/
def IndexedBy (list : LinkedList β) (handle? : β → Option SlotId) : Prop :=
  ∃ entries, list.Holds entries ∧ ∀ id value, handle? value = some id ↔ (id, value) ∈ entries

theorem IndexedBy.get?_eq_some_iff (h : list.IndexedBy handle?) :
    list.get? id = some value ↔ handle? value = some id := by
  obtain ⟨entries, hentries, hindex⟩ := h
  rw [hentries.get?_eq_some_iff, hindex]

theorem IndexedBy.mem_toList_iff (h : list.IndexedBy handle?) :
    value ∈ list.toList ↔ ∃ id, handle? value = some id := by
  obtain ⟨entries, hentries, hindex⟩ := h
  simp [hentries.toList_eq, hindex]

theorem IndexedBy.nodup_toList (h : list.IndexedBy handle?) : list.toList.Nodup := by
  obtain ⟨entries, hentries, hindex⟩ := h
  rw [hentries.toList_eq]
  apply hentries.nodup.of_map.map_on
  rintro ⟨id, value⟩ hfirst ⟨id', value'⟩ hsecond heq
  obtain rfl : value = value' := heq
  rw [← hindex] at hfirst hsecond
  rw [hfirst] at hsecond
  cases hsecond
  rfl

theorem IndexedBy.length_eq (h : list.IndexedBy handle?) : list.length = list.toList.length := by
  obtain ⟨entries, hentries, -⟩ := h
  rw [hentries.toList_eq, List.length_map, hentries.length_eq]

theorem IndexedBy.checkLinks_eq (h : list.IndexedBy handle?) : list.checkLinks = .ok () := by
  obtain ⟨entries, hentries, -⟩ := h
  exact hentries.checkLinks_eq

theorem IndexedBy.peek?_back (h : list.IndexedBy handle?) :
    list.peek? .back = list.toList.getLast? := by
  obtain ⟨entries, hentries, -⟩ := h
  rw [hentries.peek?_eq, hentries.toList_eq, End.orient, List.head?_reverse, List.getLast?_map]

theorem indexedBy_empty : (empty : LinkedList β).IndexedBy fun _ ↦ none :=
  ⟨[], holds_empty, by simp⟩

/-- The node at the back is the one to which the handle of the last value leads. -/
theorem IndexedBy.endId_back_iff (h : list.IndexedBy handle?) (hid : handle? value = some id) :
    list.endId .back = some id ↔ list.toList.getLast? = some value := by
  rw [← h.peek?_back, peek?]
  cases hend : list.endId .back with
  | none => simp
  | some last =>
    rw [Option.some_inj, Option.bind_some, h.get?_eq_some_iff]
    constructor
    · rintro rfl
      exact hid
    · intro hlast
      rw [hid] at hlast
      exact (Option.some_inj.1 hlast).symm

/-- The last value is taken by way of its handle. -/
theorem IndexedBy.pop_back (h : list.IndexedBy handle?)
    (hlast : list.toList.getLast? = some value) :
    ∃ id, handle? value = some id ∧ list.pop .back = (some value, (list.remove id).2) := by
  obtain ⟨id, hid⟩ := h.mem_toList_iff.1 (List.mem_of_getLast? hlast)
  have hend := (h.endId_back_iff hid).2 hlast
  have hget := h.get?_eq_some_iff.2 hid
  refine ⟨id, hid, ?_⟩
  rw [pop, hend]
  exact (remove_eq list id).trans (by rw [hget]; rfl)

theorem IndexedBy.pop_back_nil (h : list.IndexedBy handle?) (hnil : list.toList = []) :
    list.pop .back = (none, list) := by
  obtain ⟨entries, hentries, -⟩ := h
  rw [hentries.toList_eq, List.map_eq_nil_iff] at hnil
  subst hnil
  exact hentries.pop_nil .back

/-- A handle that leads nowhere removes nothing. -/
theorem IndexedBy.remove_of_missing (h : list.IndexedBy handle?)
    (hmissing : ∀ value, handle? value ≠ some id) : list.remove id = (none, list) := by
  obtain ⟨entries, hentries, hindex⟩ := h
  apply hentries.remove_of_missing
  intro hmem
  obtain ⟨⟨id', value⟩, hentry, rfl⟩ := List.mem_map.1 hmem
  exact hmissing value ((hindex id' value).2 hentry)

/-- A value without a handle is put at the front and given one. -/
theorem IndexedBy.push (h : list.IndexedBy handle?) (hnone : handle? value = none)
    (hself : handle?' value = some (list.push .front value).1)
    (hothers : ∀ other ≠ value, handle?' other = handle? other) :
    (list.push .front value).2.IndexedBy handle?' ∧
      (list.push .front value).2.toList = value :: list.toList := by
  obtain ⟨entries, hentries, hindex⟩ := h
  obtain ⟨-, hpushed⟩ := hentries.push .front value
  refine ⟨⟨_, hpushed, ?_⟩, ?_⟩
  · intro id other
    rw [End.cons, List.mem_cons, Prod.mk.injEq]
    by_cases heq : other = value
    · have hnot : (id, value) ∉ entries := by
        rw [← hindex, hnone]
        exact Option.some_ne_none id ∘ Eq.symm
      subst heq
      rw [hself, Option.some_inj, or_iff_left hnot, and_iff_left rfl, eq_comm]
    · rw [hothers other heq, hindex]
      simp [heq]
  · rw [hpushed.toList_eq, hentries.toList_eq]
    rfl

variable [BEq β] [LawfulBEq β]

/-- The list around the node to which a handle leads. -/
theorem Holds.exists_split_of_mem {entries : List (SlotId × β)} (h : list.Holds entries)
    (hindex : ∀ id value, handle? value = some id ↔ (id, value) ∈ entries)
    (hid : handle? value = some id) :
    ∃ before after, entries = before ++ (id, value) :: after ∧
      list.toList.erase value = (before ++ after).map (·.2) ∧
      value ∉ (before ++ after).map (·.2) := by
  have hnodup : list.toList.Nodup := IndexedBy.nodup_toList ⟨entries, h, hindex⟩
  obtain ⟨before, after, rfl⟩ := List.append_of_mem ((hindex id value).1 hid)
  rw [h.toList_eq, List.map_append, List.map_cons, List.nodup_middle, List.nodup_cons,
    ← List.map_append] at hnodup
  have hbefore : value ∉ before.map (·.2) := by
    intro hmem
    exact hnodup.1 (by rw [List.map_append]; exact List.mem_append_left _ hmem)
  refine ⟨before, after, rfl, ?_, hnodup.1⟩
  rw [h.toList_eq, List.map_append, List.map_cons, List.erase_append_right _ hbefore,
    List.erase_cons_head, List.map_append]

/-- The value to which a handle leads is removed and loses the handle. -/
theorem IndexedBy.remove (h : list.IndexedBy handle?) (hid : handle? value = some id)
    (hself : handle?' value = none)
    (hothers : ∀ other ≠ value, handle?' other = handle? other) :
    (list.remove id).2.IndexedBy handle?' ∧
      (list.remove id).2.toList = list.toList.erase value := by
  obtain ⟨entries, hentries, hindex⟩ := h
  obtain ⟨before, after, rfl, herase, hnot⟩ := hentries.exists_split_of_mem hindex hid
  have hremoved : (list.remove id).2.Holds (before ++ after) := hentries.erase
  refine ⟨⟨_, hremoved, ?_⟩, ?_⟩
  · intro id' other
    by_cases heq : other = value
    · subst heq
      rw [hself]
      simp only [reduceCtorEq, false_iff]
      exact fun hmem ↦ hnot (List.mem_map_of_mem (f := (·.2)) hmem)
    · rw [hothers other heq, hindex]
      simp [heq]
  · rw [hremoved.toList_eq, herase]

/-- The value to which a handle leads is moved to the front and keeps the handle. -/
theorem IndexedBy.move (h : list.IndexedBy handle?) (hid : handle? value = some id) :
    (list.move id .front).2.IndexedBy handle? ∧
      (list.move id .front).2.toList = value :: list.toList.erase value := by
  obtain ⟨entries, hentries, hindex⟩ := h
  obtain ⟨before, after, rfl, herase, -⟩ := hentries.exists_split_of_mem hindex hid
  have hmoved : (list.move id .front).2.Holds ((id, value) :: (before ++ after)) :=
    hentries.relink .front
  refine ⟨⟨_, hmoved, ?_⟩, ?_⟩
  · intro id' other
    rw [hindex]
    simp only [List.mem_append, List.mem_cons]
    tauto
  · rw [hmoved.toList_eq, herase]
    rfl

end KeyHeat.LinkedList

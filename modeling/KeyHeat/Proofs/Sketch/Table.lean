import Mathlib.Data.List.Nodup
import Mathlib.Order.Bounds.Basic

/-!
# Tables with one place of a key in each row

The sketches keep the rows of a table one after another in an array, and a key has one place in
each row. The places of a key are therefore distinct, and an update of all of them changes each of
them once and nothing else. What a sketch tells of a key is the least of what its places hold.
-/

namespace KeyHeat.Table

/-! ## Places -/

section

variable {σ : Type} {width depth row col : Nat} {column : σ → Nat} {seeds : List σ}

theorem place_lt (hrow : row < depth) (hcol : col < width) : row * width + col < width * depth := by
  calc
    row * width + col < row * width + width := Nat.add_lt_add_left hcol _
    _ = width * (row + 1) := by rw [Nat.mul_comm, Nat.mul_succ]
    _ ≤ width * depth := Nat.mul_le_mul_left width hrow

theorem place_div (row : Nat) (hcol : col < width) : (row * width + col) / width = row := by
  rw [Nat.mul_comm, Nat.mul_add_div (Nat.zero_lt_of_lt hcol), Nat.div_eq_of_lt hcol, Nat.add_zero]

/-- The places of a key whose column in a row is known from the seed of that row. -/
def places (width : Nat) (column : σ → Nat) (seeds : List σ) : List Nat :=
  seeds.zipIdx.map fun (seed, row) ↦ row * width + column seed

theorem mem_places {place : Nat} : place ∈ places width column seeds ↔ ∃ row seed,
    seeds[row]? = some seed ∧ row * width + column seed = place := by
  simp only [places, List.mem_map, Prod.exists, List.mem_zipIdx_iff_getElem?]
  exact exists_comm

theorem lt_of_mem_places (hcolumn : ∀ seed, column seed < width) {place : Nat}
    (hplace : place ∈ places width column seeds) : place < width * seeds.length := by
  obtain ⟨row, seed, hseed, rfl⟩ := mem_places.1 hplace
  obtain ⟨hrow, -⟩ := List.getElem?_eq_some_iff.1 hseed
  exact place_lt hrow (hcolumn seed)

/-- In each row the key has the place of its column. -/
theorem mem_places_iff (hcolumn : ∀ seed, column seed < width) {seed : σ}
    (hseed : seeds[row]? = some seed) (hcol : col < width) :
    row * width + col ∈ places width column seeds ↔ column seed = col := by
  rw [mem_places]
  constructor
  · rintro ⟨row', seed', hseed', heq⟩
    have hrow : row' = row := by
      calc
        row' = (row' * width + column seed') / width := (place_div row' (hcolumn seed')).symm
        _ = row := by rw [heq, place_div row hcol]
    subst hrow
    rw [hseed] at hseed'
    cases hseed'
    exact Nat.add_left_cancel heq
  · rintro rfl
    exact ⟨row, seed, hseed, rfl⟩

/-- No two rows share a place. -/
theorem nodup_places (hcolumn : ∀ seed, column seed < width) (seeds : List σ) :
    (places width column seeds).Nodup := by
  apply List.Nodup.of_map (· / width)
  have hrows : (places width column seeds).map (· / width) = seeds.zipIdx.map (·.2) := by
    rw [places, List.map_map]
    apply List.map_congr_left
    rintro ⟨seed, row⟩ _
    exact place_div row (hcolumn seed)
  rw [hrows, List.zipIdx_map_snd]
  exact List.nodup_range'

/-- What is read at the place of every row is read seed by seed. -/
theorem map_map_zipIdx_eq {ρ α : Type} {place : σ × Nat → ρ} {read : ρ → α} {value : σ → α}
    (hvalue : ∀ row seed, seeds[row]? = some seed → read (place (seed, row)) = value seed) :
    (seeds.zipIdx.map place).map read = seeds.map value := by
  calc
    (seeds.zipIdx.map place).map read = seeds.zipIdx.map (value ∘ (·.1)) := by
      rw [List.map_map]
      apply List.map_congr_left
      rintro ⟨seed, row⟩ hmem
      exact hvalue row seed (List.mem_zipIdx_iff_getElem?.1 hmem)
    _ = seeds.map value := by rw [← List.map_map, List.zipIdx_map_fst]

end

/-! ## Updates -/

section

variable {α ι : Type} {place : ι → Nat} {update : ι → α → α} {items : List ι}

/-- The table after one update at the place of each item. -/
def updateAll (place : ι → Nat) (update : ι → α → α) (items : List ι) (cells : Array α) : Array α :=
  items.foldl (fun cells item ↦ cells.modify (place item) (update item)) cells

@[simp]
theorem size_updateAll (items : List ι) (cells : Array α) :
    (updateAll place update items cells).size = cells.size := by
  induction items generalizing cells with
  | nil => rfl
  | cons item items ih => exact (ih _).trans Array.size_modify

theorem getElem?_updateAll_of_not_mem {slot : Nat} (hslot : slot ∉ items.map place)
    (cells : Array α) : (updateAll place update items cells)[slot]? = cells[slot]? := by
  induction items generalizing cells with
  | nil => rfl
  | cons item items ih =>
    rw [List.map_cons, List.mem_cons, not_or] at hslot
    calc
      _ = (cells.modify (place item) (update item))[slot]? := ih hslot.2 _
      _ = cells[slot]? := by rw [Array.getElem?_modify, if_neg (Ne.symm hslot.1)]

/-- Updates at different places do not disturb each other. -/
theorem getElem?_updateAll (hnodup : (items.map place).Nodup) {item : ι} (hitem : item ∈ items)
    (cells : Array α) : (updateAll place update items cells)[place item]? =
      cells[place item]?.map (update item) := by
  induction items generalizing cells with
  | nil => cases hitem
  | cons first rest ih =>
    obtain ⟨hfirst, hrest⟩ := List.nodup_cons.1 hnodup
    rcases List.mem_cons.1 hitem with rfl | hitem
    · calc
        _ = (cells.modify (place item) (update item))[place item]? :=
          getElem?_updateAll_of_not_mem hfirst _
        _ = _ := by rw [Array.getElem?_modify, if_pos rfl]
    · have hne : place first ≠ place item := fun heq ↦ hfirst (heq ▸ List.mem_map_of_mem hitem)
      calc
        _ = ((cells.modify (place first) (update first))[place item]?).map (update item) :=
          ih hrest hitem _
        _ = _ := by rw [Array.getElem?_modify, if_neg hne]

theorem modify_comm (update : α → α) (cells : Array α) (first second : Nat) :
    (cells.modify first update).modify second update =
      (cells.modify second update).modify first update := by
  apply Array.ext_getElem?
  intro slot
  simp only [Array.getElem?_modify]
  split_ifs <;> rfl

/-- If all places are updated in the same way, the order of the updates does not matter. -/
theorem updateAll_comm (update : α → α) (first second : List Nat) (cells : Array α) :
    updateAll id (fun _ ↦ update) second (updateAll id (fun _ ↦ update) first cells) =
      updateAll id (fun _ ↦ update) first (updateAll id (fun _ ↦ update) second cells) := by
  simp only [updateAll, ← List.foldl_append]
  apply List.perm_append_comm.foldl_eq'
  intro slot _ other _ cells
  exact modify_comm update cells slot other

end

/-! ## The least value -/

theorem isLeast_min?_map {σ : Type} {seeds : List σ} (hne : seeds ≠ []) (value : σ → Nat) :
    IsLeast {least | ∃ seed ∈ seeds, value seed = least} ((seeds.map value).min?.getD 0) := by
  simp only [← List.mem_map]
  cases hleast : (seeds.map value).min? with
  | none => exact absurd (List.map_eq_nil_iff.1 (List.min?_eq_none_iff.1 hleast)) hne
  | some least => exact List.min?_eq_some_iff.1 hleast

end KeyHeat.Table

import KeyHeat.Replay.Report
import Mathlib.Data.List.Basic

/-!
# Keys of traces are lines of files

A key that is read from a trace is a part of one line of it, so it holds no newline, and a line
without a key yields nothing, so it is not empty. Keys without newlines can be written one to a line
and read back.
-/

namespace KeyHeat

/-- A key that can be told from its surroundings when it is written on a line. -/
structure IsLine (key : Bytes) : Prop where
  ne_nil : key ≠ []
  no_newline : TraceReader.newline ∉ key

/-! ## One line -/

namespace TraceLine

theorem trim_subset (bytes : Bytes) : trim bytes ⊆ bytes := by
  intro byte hmem
  rw [trim, List.mem_reverse] at hmem
  have hleft := (List.dropWhile_sublist isBlank).subset hmem
  rw [List.mem_reverse] at hleft
  exact (List.dropWhile_sublist isBlank).subset hleft

theorem fields_subset {bytes field : Bytes} (hfield : field ∈ fields bytes) : field ⊆ bytes := by
  induction bytes generalizing field with
  | nil =>
    rw [fields, List.mem_singleton] at hfield
    rw [hfield]
    exact List.Subset.refl _
  | cons byte rest ih =>
    rw [fields] at hfield
    split_ifs at hfield
    · rcases List.mem_cons.1 hfield with rfl | hfield
      · exact List.nil_subset _
      · exact List.subset_cons_of_subset byte (ih hfield)
    · split at hfield
      · rename_i first others heq
        rcases List.mem_cons.1 hfield with rfl | hfield
        · exact List.cons_subset_cons byte (ih (by simp [heq]))
        · exact List.subset_cons_of_subset byte (ih (by simp [heq, hfield]))
      · rw [List.mem_singleton.1 hfield]
        simp

theorem key_access (operation key : Bytes) : (access operation key).key = key := by
  unfold access
  dsimp only
  split_ifs <;> rfl

theorem key_ofFields {operation key : Bytes} {op : TraceOp}
    (h : ofFields operation key = .ok op) : op.key ≠ [] ∧ op.key ⊆ key := by
  unfold ofFields at h
  dsimp only at h
  split_ifs at h with hempty
  cases h
  rw [key_access]
  exact ⟨fun hnil ↦ hempty (List.isEmpty_iff.2 hnil), trim_subset key⟩

/-- The key of an access is a field of its line. -/
theorem key_parse {line : Bytes} {op : TraceOp} (h : parse line = .ok (some op)) :
    op.key ≠ [] ∧ op.key ⊆ line := by
  have hfield {operation key : Bytes} (hmem : key ∈ fields (trim line))
      (hfields : (ofFields operation key).map some = .ok (some op)) :
      op.key ≠ [] ∧ op.key ⊆ line := by
    cases hop : ofFields operation key with
    | error problem =>
      rw [hop] at hfields
      cases hfields
    | ok read =>
      rw [hop] at hfields
      cases hfields
      obtain ⟨hne, hsub⟩ := key_ofFields hop
      have hfield := List.Subset.trans hsub (fields_subset hmem)
      exact ⟨hne, List.Subset.trans hfield (trim_subset line)⟩
  unfold parse at h
  dsimp only at h
  split_ifs at h
  · cases h
  · split at h
    · rename_i heq
      exact hfield (by simp [heq]) h
    · rename_i heq
      exact hfield (by simp [heq]) h
    · cases h

end TraceLine

/-! ## All lines -/

namespace TraceReader

/-- The lines of a trace and the bytes after them hold no newline. -/
theorem collect_no_newline {lines : List Bytes} {line : Bytes}
    (hlines : ∀ key ∈ lines, newline ∉ key) (hline : newline ∉ line) (bytes : Bytes) :
    (∀ key ∈ (splitLines.collect lines line bytes).1, newline ∉ key) ∧
      newline ∉ (splitLines.collect lines line bytes).2 := by
  induction bytes generalizing lines line with
  | nil =>
    rw [splitLines.collect]
    exact ⟨fun key hmem ↦ hlines key (List.mem_reverse.1 hmem), fun hmem ↦
      hline (List.mem_reverse.1 hmem)⟩
  | cons byte rest ih =>
    rw [splitLines.collect]
    split_ifs with hend
    · apply ih _ List.not_mem_nil
      intro key hmem
      rcases List.mem_cons.1 hmem with rfl | hmem
      · exact fun hin ↦ hline (List.mem_reverse.1 hin)
      · exact hlines key hmem
    · apply ih hlines
      rw [List.mem_cons, not_or]
      exact ⟨Ne.symm hend, hline⟩

theorem splitLines_no_newline (bytes : Bytes) :
    (∀ line ∈ (splitLines bytes).1, newline ∉ line) ∧ newline ∉ (splitLines bytes).2 :=
  collect_no_newline (by simp) List.not_mem_nil bytes

theorem isLine_item? {number : Nat} {line : Bytes} (hline : newline ∉ line) {op : TraceOp}
    (h : item? number line = some (.ok op)) : IsLine op.key := by
  unfold item? at h
  split at h
  · cases h
  · rename_i read hparse
    cases h
    obtain ⟨hne, hsub⟩ := TraceLine.key_parse hparse
    exact ⟨hne, fun hmem ↦ hline (hsub hmem)⟩
  · cases h

theorem isLine_lineItems {number : Nat} {lines : List Bytes}
    (hlines : ∀ line ∈ lines, newline ∉ line) {op : TraceOp}
    (h : .ok op ∈ lineItems number lines) : IsLine op.key := by
  rw [lineItems, List.mem_filterMap] at h
  obtain ⟨⟨line, position⟩, hmem, hitem⟩ := h
  exact isLine_item? (hlines line (List.fst_mem_of_mem_zipIdx hmem)) hitem

/-- However a trace is delivered, the bytes that wait for the end of their line hold no newline, and
so neither does a key. -/
theorem isLine_items {count : Nat} {pending : Bytes} (hpending : newline ∉ pending)
    {deliveries : List Delivery} {op : TraceOp} (h : .ok op ∈ items count pending deliveries) :
    IsLine op.key := by
  induction deliveries generalizing count pending with
  | nil =>
    rw [items] at h
    split_ifs at h
    · cases h
    · exact isLine_item? hpending (Option.mem_toList.1 h)
  | cons delivery rest ih =>
    cases delivery with
    | failure reason =>
      rw [items, List.mem_cons] at h
      rcases h with h | h
      · cases h
      · exact ih List.not_mem_nil h
    | chunk bytes =>
      rw [items] at h
      split_ifs at h
      · cases h
      · rcases List.mem_append.1 h with h | h
        · exact isLine_item? hpending (Option.mem_toList.1 h)
        · exact ih List.not_mem_nil h
      · -- What is left over is again a part of one line, which the next delivery goes on with.
        obtain ⟨hlines, htail⟩ := splitLines_no_newline (pending ++ bytes)
        rcases List.mem_append.1 h with h | h
        · exact isLine_lineItems hlines h
        · exact ih htail h

theorem isLine_ofDeliveries {deliveries : List Delivery} {op : TraceOp}
    (h : .ok op ∈ ofDeliveries deliveries) : IsLine op.key :=
  isLine_items List.not_mem_nil h

end TraceReader

/-! ## Files of keys -/

namespace Report

open TraceReader

/-- A written key is collected as one line. -/
theorem collect_append {key : Bytes} (hkey : newline ∉ key) (lines : List Bytes)
    (line rest : Bytes) :
    splitLines.collect lines line (key ++ newline :: rest) =
      splitLines.collect ((line.reverse ++ key) :: lines) [] rest := by
  induction key generalizing line with
  | nil => simp [splitLines.collect]
  | cons byte key ih =>
    rw [List.mem_cons, not_or] at hkey
    rw [List.cons_append, splitLines.collect, if_neg (Ne.symm hkey.1), ih hkey.2,
      List.reverse_cons, List.append_assoc, List.singleton_append]

theorem collect_lines {keys : List Bytes} (hkeys : ∀ key ∈ keys, newline ∉ key)
    (before : List Bytes) :
    splitLines.collect before [] (lines keys) = (before.reverse ++ keys, []) := by
  induction keys generalizing before with
  | nil => simp [lines, splitLines.collect]
  | cons key keys ih =>
    obtain ⟨hkey, hrest⟩ := List.forall_mem_cons.1 hkeys
    calc
      _ = splitLines.collect before [] (key ++ newline :: lines keys) := by
        simp [lines]
      _ = splitLines.collect (key :: before) [] (lines keys) := collect_append hkey before [] _
      _ = ((key :: before).reverse ++ keys, []) := ih hrest (key :: before)
      _ = _ := by rw [List.reverse_cons, List.append_assoc, List.singleton_append]

/-- What is written for keys without newlines falls into the keys again. -/
theorem splitLines_lines {keys : List Bytes} (hkeys : ∀ key ∈ keys, IsLine key) :
    splitLines (lines keys) = (keys, []) := by
  apply collect_lines
  intro key hmem
  exact (hkeys key hmem).no_newline

theorem lines_injective {first second : List Bytes} (hfirst : ∀ key ∈ first, IsLine key)
    (hsecond : ∀ key ∈ second, IsLine key) (heq : lines first = lines second) : first = second := by
  have hsplit := splitLines_lines hfirst
  rw [heq, splitLines_lines hsecond] at hsplit
  exact (congrArg Prod.fst hsplit).symm

end Report

end KeyHeat

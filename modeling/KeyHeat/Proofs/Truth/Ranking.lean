import KeyHeat.Proofs.Number.Shares
import KeyHeat.Proofs.Number.Word
import KeyHeat.Replay.Run
import Mathlib.Data.List.Induction
import Mathlib.Data.List.Nodup

/-!
# The exact counts and the ranking of a trace

A key counts as often as it has been accessed since its last deletion, so only the operations on the
key itself matter. The ranking puts the counted keys into a strict order, which the counts alone
decide, and the hot keys at a portion are its first ones: no other key outranks one of them.
-/

namespace KeyHeat

/-! ## Histories -/

namespace TraceOp

/-- The operations after the last deletion of `key`, latest first. -/
def sinceDeletion (key : Bytes) (ops : List TraceOp) : List TraceOp :=
  ops.reverse.takeWhile (· ≠ .delete key)

/-- How often `key` has been read or written since its last deletion. -/
def tally (ops : List TraceOp) (key : Bytes) : Nat :=
  (sinceDeletion key ops).countP fun op ↦ op = .get key ∨ op = .put key

theorem tally_concat (ops : List TraceOp) (op : TraceOp) (key : Bytes) :
    tally (ops ++ [op]) key =
      if op = .delete key then 0
      else tally ops key + if op = .get key ∨ op = .put key then 1 else 0 := by
  unfold tally sinceDeletion
  rw [List.reverse_append, List.reverse_singleton, List.singleton_append, List.takeWhile_cons]
  by_cases hdelete : op = .delete key
  · simp [hdelete]
  · simp [hdelete, List.countP_cons]

/-- The operations on other keys do not matter. -/
theorem tally_filter (ops : List TraceOp) (key : Bytes) :
    tally (ops.filter (·.key = key)) key = tally ops key := by
  induction ops using List.reverseRecOn with
  | nil => rfl
  | append_singleton ops op ih =>
    rw [List.filter_append, tally_concat]
    by_cases hkey : op.key = key
    · rw [List.filter_cons_of_pos (by simpa using hkey), List.filter_nil, tally_concat, ih]
    · have hother : op ≠ .delete key ∧ ¬ (op = .get key ∨ op = .put key) := by
        refine ⟨?_, ?_⟩
        · rintro rfl
          exact hkey rfl
        · rintro (rfl | rfl) <;> exact hkey rfl
      rw [List.filter_cons_of_neg (by simpa using hkey), List.filter_nil, List.append_nil, ih,
        if_neg hother.1, if_neg hother.2, Nat.add_zero]

end TraceOp

namespace AccessCounts

/-! ## One operation -/

section

variable {κ : Type} [BEq κ] [LawfulBEq κ] [Hashable κ] [LawfulHashable κ] (stats : AccessCounts κ)
  (key other : κ)

theorem count_eq_getElem? : stats.count key = stats.counts[key]?.getD 0 :=
  Std.HashMap.getD_eq_getD_getElem?

theorem getElem?_record : (stats.record key).counts[other]? =
    if key == other then some (stats.count key + 1) else stats.counts[other]? := by
  rw [record, Std.HashMap.getElem?_alter, count_eq_getElem?]

theorem getElem?_erase : (stats.erase key).counts[other]? =
    if key == other then none else stats.counts[other]? :=
  Std.HashMap.getElem?_erase

end

/-- Every key has the count of the history, and keys without a count are not kept. -/
structure Tallies (stats : AccessCounts Bytes) (ops : List TraceOp) : Prop where
  count_eq : ∀ key : Bytes, stats.count key = TraceOp.tally ops key
  pos : ∀ (key : Bytes) (count : Nat), stats.counts[key]? = some count → 0 < count

theorem tallies_empty : Tallies .empty [] where
  count_eq key := by
    rw [count_eq_getElem?, empty, Std.HashMap.getElem?_empty]
    rfl
  pos key count h := by
    rw [empty, Std.HashMap.getElem?_empty] at h
    cases h

section

variable {stats : AccessCounts Bytes} {ops : List TraceOp}

theorem Tallies.accessed (h : stats.Tallies ops) {op : TraceOp} {key : Bytes}
    (hop : op = .get key ∨ op = .put key) : (stats.record key).Tallies (ops ++ [op]) where
  count_eq other := by
    rw [TraceOp.tally_concat, ← h.count_eq, count_eq_getElem?, getElem?_record]
    by_cases hkey : key = other
    · subst hkey
      have hkeep : op ≠ .delete key := by rcases hop with rfl | rfl <;> simp
      simp [hop, hkeep]
    · have hother : op ≠ .delete other ∧ ¬ (op = .get other ∨ op = .put other) := by
        rcases hop with rfl | rfl <;> simp [hkey]
      simp [hkey, hother, count_eq_getElem?]
  pos other count hcount := by
    rw [getElem?_record] at hcount
    split_ifs at hcount
    · cases hcount
      exact Nat.succ_pos _
    · exact h.pos other count hcount

theorem Tallies.deleted (h : stats.Tallies ops) (key : Bytes) :
    (stats.erase key).Tallies (ops ++ [.delete key]) where
  count_eq other := by
    rw [TraceOp.tally_concat, ← h.count_eq, count_eq_getElem?, getElem?_erase]
    by_cases hkey : key = other
    · simp [hkey]
    · simp [hkey, count_eq_getElem?]
  pos other count hcount := by
    rw [getElem?_erase] at hcount
    split_ifs at hcount
    exact h.pos other count hcount

theorem Tallies.record (h : stats.Tallies ops) (op : TraceOp) :
    (op.record stats).Tallies (ops ++ [op]) := by
  cases op with
  | get key => exact h.accessed (.inl rfl)
  | put key => exact h.accessed (.inr rfl)
  | delete key => exact h.deleted key

theorem Tallies.run (h : stats.Tallies ops) (later : List TraceOp) :
    (later.foldl (fun stats op ↦ op.record stats) stats).Tallies (ops ++ later) := by
  induction later generalizing stats ops with
  | nil => simpa using h
  | cons op later ih =>
    rw [List.append_cons]
    exact ih (h.record op)

theorem Tallies.getElem?_eq (h : stats.Tallies ops) {key : Bytes} {count : Nat} :
    stats.counts[key]? = some count ↔ count = TraceOp.tally ops key ∧ 0 < count := by
  rw [← h.count_eq, count_eq_getElem?]
  cases hstored : stats.counts[key]? with
  | none =>
    rw [Option.getD_none]
    exact iff_of_false (by simp) (by omega)
  | some stored =>
    have hpos := h.pos key stored hstored
    rw [Option.getD_some, Option.some.injEq]
    exact ⟨fun heq ↦ ⟨heq.symm, heq ▸ hpos⟩, fun heq ↦ heq.1.symm⟩

end

theorem tallies_count (ops : List TraceOp) : (Replay.count ops).Tallies ops :=
  tallies_empty.run ops

/-! ## The ranking -/

/-- The first key with its count stands before the second one in a ranking: its count is higher, or
it is the same and the key is smaller. -/
def Outranks {κ : Type} [Ord κ] (first second : κ × Nat) : Prop :=
  second.2 < first.2 ∨ first.2 = second.2 ∧ compare first.1 second.1 = .lt

instance {κ : Type} [Ord κ] (first second : κ × Nat) : Decidable (Outranks first second) :=
  inferInstanceAs (Decidable (_ ∨ _))

section

variable {κ : Type} [Ord κ] {a b c : κ × Nat}

theorem ranksBefore_iff :
    ranksBefore a b = true ↔ b.2 < a.2 ∨ a.2 = b.2 ∧ (compare a.1 b.1).isLE := by
  unfold ranksBefore
  split_ifs with hcount
  · simp [hcount]
  · simp [hcount]

theorem outranks_of_ranksBefore [Std.LawfulEqOrd κ] (h : ranksBefore a b) (hne : a.1 ≠ b.1) :
    Outranks a b := by
  rw [ranksBefore_iff, Ordering.isLE_iff_eq_lt_or_eq_eq] at h
  refine h.imp_right fun ⟨hcount, hkeys⟩ ↦ ⟨hcount, hkeys.resolve_right fun heq ↦ ?_⟩
  exact hne (Std.LawfulEqOrd.eq_of_compare heq)

variable [Std.TransOrd κ]

theorem ranksBefore_trans (hab : ranksBefore a b) (hbc : ranksBefore b c) : ranksBefore a c := by
  rw [ranksBefore_iff] at *
  rcases hab with hab | ⟨hab, hkeys⟩
  · exact .inl (by omega)
  · rcases hbc with hbc | ⟨hbc, hlater⟩
    · exact .inl (by omega)
    · exact .inr ⟨hab.trans hbc, Std.TransOrd.isLE_trans hkeys hlater⟩

theorem ranksBefore_total (a b : κ × Nat) : ranksBefore a b || ranksBefore b a := by
  have hkeys : (compare a.1 b.1).isLE ∨ (compare b.1 a.1).isLE := by
    rw [Std.OrientedOrd.eq_swap (a := b.1)]
    cases compare a.1 b.1 <;> simp
  rw [Bool.or_eq_true, ranksBefore_iff, ranksBefore_iff]
  rcases Nat.lt_trichotomy a.2 b.2 with hcount | hcount | hcount
  · exact .inr (.inl hcount)
  · exact hkeys.imp (fun h ↦ .inr ⟨hcount, h⟩) fun h ↦ .inr ⟨hcount.symm, h⟩
  · exact .inl (.inl hcount)

theorem Outranks.asymm (h : Outranks a b) : ¬ Outranks b a := by
  rintro (hcount | ⟨hcount, hkey⟩)
  · rcases h with h | ⟨h, -⟩ <;> omega
  · rcases h with h | ⟨-, h⟩
    · omega
    · rw [Std.OrientedOrd.eq_swap, hkey] at h
      cases h

end

section

variable {κ : Type} [BEq κ] [Hashable κ] [Ord κ] {stats : AccessCounts κ}

theorem perm_ranked : stats.ranked.Perm stats.counts.toList :=
  List.mergeSort_perm _ _

variable [LawfulBEq κ]

theorem mem_ranked {key : κ} {count : Nat} :
    (key, count) ∈ stats.ranked ↔ stats.counts[key]? = some count := by
  rw [perm_ranked.mem_iff, Std.HashMap.mem_toList_iff_getElem?_eq_some]

variable [LawfulHashable κ]

theorem length_ranked : stats.ranked.length = stats.size :=
  perm_ranked.length_eq.trans Std.HashMap.length_toList

theorem nodup_ranked : (stats.ranked.map (·.1)).Nodup := by
  rw [(perm_ranked.map _).nodup_iff, List.Nodup, List.pairwise_map]
  exact Std.HashMap.distinct_keys_toList.imp fun hkeys ↦ by simpa using hkeys

variable [Std.TransOrd κ] [Std.LawfulEqOrd κ]

theorem pairwise_ranked : stats.ranked.Pairwise Outranks := by
  have hsorted : stats.ranked.Pairwise fun a b ↦ ranksBefore a b := by
    apply List.pairwise_mergeSort
    · intro a b c
      exact ranksBefore_trans
    · exact ranksBefore_total
  have hkeys : (stats.ranked.map (·.1)).Nodup := nodup_ranked
  exact (hsorted.and (List.pairwise_map.1 hkeys)).imp fun h ↦ outranks_of_ranksBefore h.1 h.2

/-- There is only one list of the counted keys in this order. -/
theorem ranked_eq {list : List (κ × Nat)} (hlist : list.Pairwise Outranks)
    (hmem : ∀ key count, (key, count) ∈ list ↔ stats.counts[key]? = some count) :
    stats.ranked = list := by
  have hnodup : list.Nodup := hlist.imp fun hab heq ↦ (heq ▸ hab).asymm (heq ▸ hab)
  have hkeys : (stats.ranked.map (·.1)).Nodup := nodup_ranked
  have hperm : stats.ranked.Perm list := by
    rw [List.perm_ext_iff_of_nodup hkeys.of_map hnodup]
    rintro ⟨key, count⟩
    rw [mem_ranked, hmem]
  exact hperm.eq_of_pairwise (fun a b _ _ hab hba ↦ absurd hba hab.asymm) pairwise_ranked hlist

/-- The counts alone decide the ranking. -/
theorem ranked_congr {others : AccessCounts κ}
    (h : ∀ key : κ, others.counts[key]? = stats.counts[key]?) : others.ranked = stats.ranked :=
  ranked_eq pairwise_ranked fun key count ↦ by rw [mem_ranked, h]

end

end AccessCounts

/-! ## Hot keys -/

theorem hotKeyCount_zero (portion : Float) : hotKeyCount 0 portion = 0 := rfl

theorem hotKeyCount_bounds {n : Nat} (hn : 0 < n) (portion : Float) :
    1 ≤ hotKeyCount n portion ∧ hotKeyCount n portion ≤ n := by
  rw [hotKeyCount, if_neg (by omega)]
  omega

theorem hotKeyCount_le (n : Nat) (portion : Float) : hotKeyCount n portion ≤ n := by
  rcases Nat.eq_zero_or_pos n with rfl | hn
  · exact Nat.le_refl 0
  · exact (hotKeyCount_bounds hn portion).2

/-- The sum behind the number of hot keys is one of words while the number of keys is a double. -/
theorem sum_wholePortion {n : Nat} (hn : n < 2 ^ 53) (portion : Float) :
    Number.sum (wholePortion n portion) 1 = .ok (wholePortion n portion + 1) := by
  have hle : wholePortion n portion ≤ n := Number.truncate_mul_clamp_le hn portion
  have hlimit : Number.wordLimit = 2 ^ 64 := rfl
  exact Number.sum_of_lt (by omega)

namespace AccessCounts

section

variable {κ : Type} [BEq κ] [Hashable κ] [Ord κ] {stats : AccessCounts κ} {portion : Float}

theorem hotKeys_eq :
    stats.hotKeys portion = (stats.ranked.map (·.1)).take (hotKeyCount stats.size portion) :=
  List.map_take

variable [LawfulBEq κ] [LawfulHashable κ]

theorem length_hotKeys : (stats.hotKeys portion).length = hotKeyCount stats.size portion := by
  rw [hotKeys_eq, List.length_take, List.length_map, length_ranked]
  exact Nat.min_eq_left (hotKeyCount_le _ _)

variable [Std.TransOrd κ] [Std.LawfulEqOrd κ]

/-- A hot key stands before every key that is not. -/
theorem outranks_of_hot
    (hpos : ∀ (key : κ) (count : Nat), stats.counts[key]? = some count → 0 < count) {key other : κ}
    (hkey : key ∈ stats.hotKeys portion) (hother : other ∉ stats.hotKeys portion) :
    Outranks (key, stats.count key) (other, stats.count other) := by
  obtain ⟨⟨hot, count⟩, htaken, rfl⟩ := List.mem_map.1 hkey
  have hcount : stats.counts[hot]? = some count := mem_ranked.1 (List.mem_of_mem_take htaken)
  rw [count_eq_getElem?, hcount]
  cases hstored : stats.counts[other]? with
  | none =>
    rw [count_eq_getElem?, hstored]
    exact .inl (hpos hot count hcount)
  | some stored =>
    rw [count_eq_getElem?, hstored]
    have hranked : (other, stored) ∈ stats.ranked := mem_ranked.2 hstored
    have hsplit := stats.pairwise_ranked
    rw [← List.take_append_drop (hotKeyCount stats.size portion) stats.ranked] at hsplit hranked
    rcases List.mem_append.1 hranked with htop | hrest
    · exact absurd (List.mem_map_of_mem htop) hother
    · exact (List.pairwise_append.1 hsplit).2.2 _ htaken _ hrest

end

/-! ## Traces -/

/-- The counts, the ranking and the hot keys of a history. -/
structure Exact (stats : AccessCounts Bytes) (ops : List TraceOp) : Prop where
  count_eq : ∀ key, stats.count key = TraceOp.tally ops key
  mem_ranked : ∀ key count,
    (key, count) ∈ stats.ranked ↔ count = TraceOp.tally ops key ∧ 0 < count
  nodup_ranked : (stats.ranked.map (·.1)).Nodup
  pairwise_ranked : stats.ranked.Pairwise Outranks
  length_ranked : stats.ranked.length = stats.size
  hotKeys_prefix : ∀ portion, stats.hotKeys portion <+: stats.ranked.map (·.1)
  length_hotKeys : ∀ portion, (stats.hotKeys portion).length = hotKeyCount stats.size portion
  outranks : ∀ portion, ∀ key ∈ stats.hotKeys portion, ∀ other ∉ stats.hotKeys portion,
    Outranks (key, stats.count key) (other, stats.count other)

theorem Tallies.exact {stats : AccessCounts Bytes} {ops : List TraceOp} (h : stats.Tallies ops) :
    stats.Exact ops where
  count_eq := h.count_eq
  mem_ranked key count := by rw [AccessCounts.mem_ranked, h.getElem?_eq]
  nodup_ranked := AccessCounts.nodup_ranked
  pairwise_ranked := AccessCounts.pairwise_ranked
  length_ranked := AccessCounts.length_ranked
  hotKeys_prefix portion := by
    rw [hotKeys_eq]
    exact List.take_prefix _ _
  length_hotKeys portion := AccessCounts.length_hotKeys
  outranks portion key hkey other hother := outranks_of_hot h.pos hkey hother

/-- Two traces with the same operations on every key, in the same order, are counted alike. -/
theorem getElem?_count_congr {ops others : List TraceOp}
    (h : ∀ key, others.filter (·.key = key) = ops.filter (·.key = key)) (key : Bytes) :
    (Replay.count others).counts[key]? = (Replay.count ops).counts[key]? := by
  apply Option.ext
  intro count
  rw [(tallies_count others).getElem?_eq, (tallies_count ops).getElem?_eq,
    ← TraceOp.tally_filter others, h, TraceOp.tally_filter]

/-- The counts of a trace are exact. Operations on different keys may be reordered: only the order
of the operations on each key matters to the counts, the ranking and the hot keys. And as many keys
are hot as the portion asks for, at least one if there is any. The sum that this takes is in the
range of words while the number of keys is below two to the power 53. -/
theorem exact_of_trace (ops : List TraceOp) :
    (Replay.count ops).Exact ops ∧
    (∀ others : List TraceOp,
      (∀ key, others.filter (·.key = key) = ops.filter (·.key = key)) →
      (∀ key, (Replay.count others).count key = (Replay.count ops).count key) ∧
        (Replay.count others).ranked = (Replay.count ops).ranked ∧
        ∀ portion, (Replay.count others).hotKeys portion = (Replay.count ops).hotKeys portion) ∧
    ∀ (n : Nat) (portion : Float), (n = 0 → hotKeyCount n portion = 0) ∧
      (0 < n → 1 ≤ hotKeyCount n portion ∧ hotKeyCount n portion ≤ n) ∧
      (n < 2 ^ 53 → Number.sum (wholePortion n portion) 1 = .ok (wholePortion n portion + 1)) := by
  refine ⟨(tallies_count ops).exact, ?_, ?_⟩
  · intro others hothers
    have hcounts := getElem?_count_congr hothers
    have hranked := ranked_congr hcounts
    refine ⟨fun key ↦ ?_, hranked, fun portion ↦ ?_⟩
    · rw [count_eq_getElem?, hcounts, ← count_eq_getElem?]
    · rw [hotKeys_eq, hotKeys_eq, hranked, ← length_ranked, hranked, length_ranked]
  · intro n portion
    refine ⟨?_, fun hn ↦ hotKeyCount_bounds hn portion, fun hn ↦ sum_wholePortion hn portion⟩
    rintro rfl
    exact hotKeyCount_zero portion

/-- Writes and reads of three keys, one of which is deleted in between. -/
def threeKeys : List TraceOp :=
  [.put [97], .get [98], .get [97], .delete [97], .put [99], .get [97], .put [98]]

theorem ranked_threeKeys :
    (Replay.count threeKeys).ranked = [([98], 2), ([97], 1), ([99], 1)] := by
  apply ranked_eq (by decide)
  intro key count
  rw [(tallies_count threeKeys).getElem?_eq]
  have h97 : TraceOp.tally threeKeys [97] = 1 := by decide
  have h98 : TraceOp.tally threeKeys [98] = 2 := by decide
  have h99 : TraceOp.tally threeKeys [99] = 1 := by decide
  by_cases hkey : key = [97] ∨ key = [98] ∨ key = [99]
  · rcases hkey with rfl | rfl | rfl <;> grind
  · simp only [not_or] at hkey
    have hnone : threeKeys.filter (·.key = key) = [] := by
      simp [threeKeys, TraceOp.key, Ne.symm hkey.1, Ne.symm hkey.2.1, Ne.symm hkey.2.2]
    have hzero : TraceOp.tally threeKeys key = 0 := by
      rw [← TraceOp.tally_filter, hnone]
      rfl
    rw [hzero]
    simp [hkey]

/-- Two of the keys are accessed once after the deletion, and the smaller one is ranked first. -/
theorem exact_of_trace_threeKeys :
    let others : List TraceOp :=
      [.get [98], .put [98], .put [97], .get [97], .delete [97], .get [97], .put [99]]
    (∀ key, others.filter (·.key = key) = threeKeys.filter (·.key = key)) ∧
      (Replay.count others).ranked = [([98], 2), ([97], 1), ([99], 1)] ∧
      (Replay.count threeKeys).hotKeys 0.5 = [[98], [97]] ∧
      Outranks (([97] : Bytes), (Replay.count threeKeys).count [97])
        ([99], (Replay.count threeKeys).count [99]) ∧
      1 ≤ hotKeyCount 3 0.5 := by
  intro others
  have hsame : ∀ key, others.filter (·.key = key) = threeKeys.filter (·.key = key) := by
    intro key
    simp only [others, threeKeys, List.filter_cons, TraceOp.key]
    by_cases h97 : key = [97]
    · simp [h97]
    · by_cases h98 : key = [98]
      · simp [h98]
      · simp [Ne.symm h97, Ne.symm h98]
  have hhot : (Replay.count threeKeys).hotKeys 0.5 = [[98], [97]] := by
    have hcount : hotKeyCount 3 0.5 = 2 := by decide +kernel
    rw [hotKeys_eq, ← length_ranked, ranked_threeKeys]
    simp [hcount]
  obtain ⟨hexact, hreordered, hbounds⟩ := exact_of_trace threeKeys
  exact ⟨hsame, (hreordered others hsame).2.1.trans ranked_threeKeys, hhot,
    hexact.outranks 0.5 [97] (by simp [hhot]) [99] (by simp [hhot]),
    ((hbounds 3 0.5).2.1 (by decide)).1⟩

end AccessCounts

end KeyHeat

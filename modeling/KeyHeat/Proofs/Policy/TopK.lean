import KeyHeat.Policy.TopK
import KeyHeat.Proofs.Container.KeyCount
import KeyHeat.Proofs.Container.LazyHeap

/-!
# The members of the top-`k` policy

There are at most `k` members. The score of each is its exact number of accesses and has reached
the threshold; a newcomer takes a free place or that of one member.
-/

namespace KeyHeat.TopK

variable {κ : Type} [BEq κ] [Hashable κ]

/-- The members have places, and scores that are their counts and reach the threshold. -/
structure Valid (topK : TopK κ) : Prop where
  size_le : topK.size ≤ topK.k
  scored : ∀ (key : κ) (score : Nat), topK.members.scores[key]? = some score →
    topK.count key = score ∧ topK.threshold ≤ score

/-- What a competition may come to: the count is too low, a member is counted again, a newcomer
finds a free place, loses to the member of least count, or takes its place. -/
inductive Competed (members : LazyHeap κ Nat) (k threshold : Nat) (key : κ) (count : Nat) :
    LazyHeap κ Nat → Prop
  | low (hlow : count < threshold) : Competed members k threshold key count members
  | renewed (hhigh : threshold ≤ count) (hmember : key ∈ members.scores) :
    Competed members k threshold key count
      ((members.update key count).maybeRebuild rebuildFactor)
  | entered (hhigh : threshold ≤ count) (hnew : members.scores[key]? = none)
    (hroom : members.size < k) :
    Competed members k threshold key count (members.update key count)
  | beaten (hhigh : threshold ≤ count) (hnew : members.scores[key]? = none)
    (hfull : k ≤ members.size) (hbeaten : ∀ top ∈ members.peek?.1, count ≤ top.2) :
    Competed members k threshold key count members.peek?.2
  | ousted (victim : κ) (lowest : Nat) (hhigh : threshold ≤ count)
    (hnew : members.scores[key]? = none) (hfull : k ≤ members.size)
    (hpeek : members.peek?.1 = some (victim, lowest)) (hhigher : lowest < count) :
    Competed members k threshold key count (members.peek?.2.pop?.2.update key count)

/-- What a competition may do to the scores: the members stay, or the key takes a place of its own
or a free one, or that of a member who leaves. -/
inductive Ranked (before after : Std.HashMap κ Nat) (k threshold : Nat) (key : κ) (count : Nat) :
    Prop where
  | stay (hafter : after = before) (hout : count < threshold ∨ before[key]? = none)
  | place (hafter : after = before.insert key count) (hhigh : threshold ≤ count)
    (hroom : key ∈ before ∨ before.size < k)
  | oust (victim : κ) (hafter : after = (before.erase victim).insert key count)
    (hhigh : threshold ≤ count) (hvictim : victim ∈ before)

variable {topK : TopK κ}

/-! ## Outcomes -/

theorem k_access (key : κ) : (topK.access key).2.k = topK.k := by
  unfold access
  split_ifs <;> rfl

theorem threshold_access (key : κ) : (topK.access key).2.threshold = topK.threshold := by
  unfold access
  split_ifs <;> rfl

theorem access_fst (key : κ) :
    (topK.access key).1 = if topK.k = 0 then .error .capacity else .ok () := by
  unfold access
  split_ifs <;> rfl

theorem valid_empty (k threshold : Nat) : (empty k threshold : TopK κ).Valid where
  size_le := by simp [size, empty, LazyHeap.size, LazyHeap.empty]
  scored key score hscore := by simp [empty, LazyHeap.empty] at hscore

/-! ## The competition for places -/

variable [LawfulBEq κ]

theorem competed_rank (members : LazyHeap κ Nat) (k threshold : Nat) (key : κ) (count : Nat) :
    Competed members k threshold key count (rank members k threshold key count) := by
  unfold rank
  split_ifs with hlow hmember hroom
  · exact .low hlow
  · exact .renewed (Nat.le_of_not_lt hlow) (Std.HashMap.contains_iff_mem.1 hmember)
  all_goals
    rw [Bool.not_eq_true] at hmember
    have hhigh := Nat.le_of_not_lt hlow
    have hnew : members.scores[key]? = none :=
      Std.HashMap.getElem?_eq_none_of_contains_eq_false hmember
  · exact .entered hhigh hnew hroom
  · have hfull := Nat.le_of_not_lt hroom
    cases hpeek : members.peek?.1 with
    | none =>
      have heq : challenge members key count = members.peek?.2 := by
        rw [challenge, ← Prod.eta members.peek?, hpeek]
      rw [heq]
      exact .beaten hhigh hnew hfull (by simp [hpeek])
    | some top =>
      have heq : challenge members key count = if count > top.2
          then members.peek?.2.pop?.2.update key count else members.peek?.2 := by
        rw [challenge, ← Prod.eta members.peek?, hpeek]
      rw [heq]
      split_ifs with hhigher
      · exact .ousted top.1 top.2 hhigh hnew hfull hpeek hhigher
      · exact .beaten hhigh hnew hfull (by simpa [hpeek] using hhigher)

theorem Competed.ranked {members after : LazyHeap κ Nat} {k threshold : Nat} {key : κ}
    {count : Nat} (h : Competed members k threshold key count after) :
    Ranked members.scores after.scores k threshold key count := by
  cases h with
  | low hlow => exact .stay rfl (.inl hlow)
  | renewed hhigh hmember =>
    exact .place (LazyHeap.scores_maybeRebuild _ _) hhigh (.inl hmember)
  | entered hhigh hnew hroom => exact .place rfl hhigh (.inr hroom)
  | beaten hhigh hnew hfull hbeaten =>
    exact .stay (LazyHeap.scores_dropStale members) (.inr hnew)
  | ousted victim lowest hhigh hnew hfull hpeek hhigher =>
    have hafter : (members.peek?.2.pop?.2.update key count).scores =
        (members.scores.erase victim).insert key count := by
      rw [LazyHeap.scores_update, LazyHeap.scores_pop?_peek? hpeek]
    exact .oust victim hafter hhigh (mem_of_getElem? (LazyHeap.score?_of_peek? hpeek))

theorem Ranked.size_le {before after : Std.HashMap κ Nat} {k threshold : Nat} {key : κ}
    {count : Nat} (h : Ranked before after k threshold key count) (hsize : before.size ≤ k) :
    after.size ≤ k := by
  cases h with
  | stay hafter hout =>
    rw [hafter]
    exact hsize
  | place hafter hhigh hroom =>
    rw [hafter]
    rcases hroom with hmem | hroom
    · rw [Std.HashMap.size_insert, if_pos hmem]
      exact hsize
    · exact Nat.le_trans Std.HashMap.size_insert_le hroom
  | oust victim hafter hhigh hvictim =>
    obtain ⟨score, hscore⟩ := mem_iff_exists_getElem?.1 hvictim
    have hpos := size_pos_of_mem hvictim
    rw [hafter]
    calc
      _ ≤ (before.erase victim).size + 1 := Std.HashMap.size_insert_le
      _ = before.size - 1 + 1 := by rw [size_erase_of_getElem? hscore]
      _ ≤ k := by omega

/-- A score is that of the access, or one from before. -/
theorem Ranked.score_cases {before after : Std.HashMap κ Nat} {k threshold : Nat} {key other : κ}
    {count score : Nat} (h : Ranked before after k threshold key count)
    (hscore : after[other]? = some score) :
    (other = key ∧ score = count ∧ threshold ≤ count) ∨
      before[other]? = some score ∧ (other = key → count < threshold) := by
  cases h with
  | stay hafter hout =>
    rw [hafter] at hscore
    refine .inr ⟨hscore, ?_⟩
    rintro rfl
    apply hout.resolve_right
    rw [hscore]
    exact Option.some_ne_none score
  | place hafter hhigh hroom =>
    rw [hafter, Std.HashMap.getElem?_insert] at hscore
    split_ifs at hscore with heq
    · exact .inl ⟨(beq_iff_eq.1 heq).symm, (Option.some.inj hscore).symm, hhigh⟩
    · exact .inr ⟨hscore, fun hkey ↦ absurd (beq_iff_eq.2 hkey.symm) heq⟩
  | oust victim hafter hhigh hvictim =>
    rw [hafter, Std.HashMap.getElem?_insert, Std.HashMap.getElem?_erase] at hscore
    split_ifs at hscore with heq hgone
    · exact .inl ⟨(beq_iff_eq.1 heq).symm, (Option.some.inj hscore).symm, hhigh⟩
    · exact .inr ⟨hscore, fun hkey ↦ absurd (beq_iff_eq.2 hkey.symm) heq⟩

/-! ## Accesses -/

theorem count_record (key other : κ) :
    (topK.record key).count other =
      if key == other then topK.count key + 1 else topK.count other :=
  Std.HashMap.getD_insert

omit [LawfulBEq κ] in
theorem members_record (key : κ) :
    (topK.record key).members =
      rank topK.members topK.k topK.threshold key (topK.count key + 1) := rfl

theorem competed_record (topK : TopK κ) (key : κ) :
    Competed topK.members topK.k topK.threshold key (topK.count key + 1)
      (topK.record key).members := by
  rw [members_record]
  exact competed_rank _ _ _ _ _

theorem ranked_record (topK : TopK κ) (key : κ) :
    Ranked topK.members.scores (topK.record key).members.scores topK.k topK.threshold key
      (topK.count key + 1) := (topK.competed_record key).ranked

theorem Valid.record (h : topK.Valid) (key : κ) : (topK.record key).Valid where
  size_le := (topK.ranked_record key).size_le h.size_le
  scored other score hscore := by
    rw [count_record]
    rcases (topK.ranked_record key).score_cases hscore with ⟨rfl, rfl, hhigh⟩ | ⟨hold, hlow⟩
    · rw [beq_self_eq_true, if_pos rfl]
      exact ⟨rfl, hhigh⟩
    · obtain ⟨hcount, hle⟩ := h.scored other score hold
      split_ifs with heq
      · obtain rfl := beq_iff_eq.1 heq
        have hbelow := hlow rfl
        omega
      · exact ⟨hcount, hle⟩

theorem Valid.access (h : topK.Valid) (key : κ) : (topK.access key).2.Valid := by
  unfold TopK.access
  split_ifs
  · exact h
  · exact h.record key

/-! ## Reports -/

theorem Valid.find?_misscored (h : topK.Valid) :
    (topK.members.toList.find? fun (key, score) ↦
      score ≠ topK.count key || topK.count key < topK.threshold) = none := by
  apply find?_toList_eq_none
  intro key score hscore
  obtain ⟨hcount, hle⟩ := h.scored key score hscore
  simp [hcount, Nat.not_lt.2 hle]

theorem Valid.check_eq (h : topK.Valid) : topK.check = .ok () := by
  rw [check, h.find?_misscored]
  simp [Nat.not_lt.2 h.size_le, pure, Except.pure]

variable [Ord κ]

/-- The ranking orders the members. -/
theorem perm_hotKeys (topK : TopK κ) : topK.hotKeys.Perm topK.members.scores.keys := by
  rw [← Std.HashMap.map_fst_toList_eq_keys]
  exact (List.mergeSort_perm _ _).map _

theorem nodup_hotKeys (topK : TopK κ) : topK.hotKeys.Nodup :=
  topK.perm_hotKeys.nodup_iff.2 Std.HashMap.nodup_keys

theorem mem_hotKeys {key : κ} : key ∈ topK.hotKeys ↔ topK.isHot key = true := by
  rw [topK.perm_hotKeys.mem_iff, Std.HashMap.mem_keys]
  exact Std.HashMap.contains_iff_mem.symm

end KeyHeat.TopK

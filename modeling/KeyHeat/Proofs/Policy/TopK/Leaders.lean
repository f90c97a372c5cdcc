import KeyHeat.Proofs.Policy.Run
import KeyHeat.Proofs.Policy.TopK
import Mathlib.Data.Set.Card

/-!
# The members are the most accessed keys

A key deserves a place once its count has reached the threshold. In any run every place is taken
or every deserving key has one, and no key without a place has a higher count than a member. One
comparison with the member of least count is enough for this, as counts never fall.
-/

namespace KeyHeat

/-! ## Sorting -/

section Sorting

variable {α : Type} {le : α → α → Bool} {R : α → α → Prop}
  (htrans : ∀ a b c, R a b → R b c → R a c) (hle : ∀ a b, le a b = true → R a b)
  (hnot : ∀ a b, le a b = false → R b a)

include htrans hle hnot

/-- A comparison that may be lawless among equals sorts by what it decides. -/
theorem pairwise_merge {xs ys : List α} (hxs : xs.Pairwise R) (hys : ys.Pairwise R) :
    (xs.merge ys le).Pairwise R := by
  induction xs, ys using List.merge.induct le with
  | case1 ys => rwa [List.nil_merge]
  | case2 xs => rwa [List.merge_right]
  | case3 x xs y ys hxy ih =>
    rw [List.cons_merge_cons_pos _ _ _ hxy]
    obtain ⟨hx, hxs'⟩ := List.pairwise_cons.1 hxs
    apply List.Pairwise.cons _ (ih hxs' hys)
    intro other hother
    rcases List.mem_merge.1 hother with hmem | hmem
    · exact hx other hmem
    · rcases List.mem_cons.1 hmem with rfl | hmem
      · exact hle x other hxy
      · exact htrans x y other (hle x y hxy) ((List.pairwise_cons.1 hys).1 other hmem)
  | case4 x xs y ys hxy ih =>
    rw [List.cons_merge_cons_neg _ _ _ hxy]
    rw [Bool.not_eq_true] at hxy
    obtain ⟨hy, hys'⟩ := List.pairwise_cons.1 hys
    apply List.Pairwise.cons _ (ih hxs hys')
    intro other hother
    rcases List.mem_merge.1 hother with hmem | hmem
    · rcases List.mem_cons.1 hmem with rfl | hmem
      · exact hnot other y hxy
      · exact htrans y x other (hnot x y hxy) ((List.pairwise_cons.1 hxs).1 other hmem)
    · exact hy other hmem

theorem pairwise_mergeSort (xs : List α) : (xs.mergeSort le).Pairwise R := by
  induction xs, le using List.mergeSort.induct with
  | case1 le => simp
  | case2 le a => simp
  | case3 a b xs le lr _ _ ihl ihr =>
    rw [List.mergeSort]
    exact pairwise_merge htrans hle hnot (ihl hle hnot) (ihr hle hnot)

end Sorting

namespace TopK

variable {κ : Type} [BEq κ] [Hashable κ] {topK : TopK κ} {key : κ}

/-- Reads and writes are served alike. -/
def serve : Service (TopK κ) κ := fun topK call ↦ topK.access call.key

theorem serve_eq (hpos : topK.k ≠ 0) (call : Call κ) :
    (serve topK call).2 = topK.record call.key := by
  rw [serve, access, if_neg hpos]

variable [LawfulBEq κ]

theorem count_le_record (topK : TopK κ) (key other : κ) :
    topK.count other ≤ (topK.record key).count other := by
  rw [count_record]
  split_ifs with heq
  · rw [beq_iff_eq.1 heq]
    exact Nat.le_succ _
  · exact Nat.le_refl _

theorem count_record_of_ne {other : κ} (hne : other ≠ key) :
    (topK.record key).count other = topK.count other := by
  rw [count_record, if_neg (by simpa using hne.symm)]

theorem count_record_self (topK : TopK κ) (key : κ) :
    (topK.record key).count key = topK.count key + 1 := by
  rw [count_record, if_pos BEq.rfl]

omit [LawfulBEq κ] in
theorem k_run (topK : TopK κ) (calls : List (Call κ)) : (serve.run topK calls).k = topK.k := by
  apply serve.run_invariant (P := fun state ↦ state.k = topK.k) _ rfl
  intro state call hsame
  exact (k_access call.key).trans hsame

omit [LawfulBEq κ] in
theorem threshold_run (topK : TopK κ) (calls : List (Call κ)) :
    (serve.run topK calls).threshold = topK.threshold := by
  apply serve.run_invariant (P := fun state ↦ state.threshold = topK.threshold) _ rfl
  intro state call hsame
  exact (threshold_access call.key).trans hsame

/-- Counts are exact. -/
theorem count_run (hpos : topK.k ≠ 0) (calls : List (Call κ)) (key : κ) :
    (serve.run topK calls).count key = topK.count key + (calls.map Call.key).count key := by
  induction calls generalizing topK with
  | nil => rfl
  | cons call calls ih =>
    have hpos' : (topK.record call.key).k ≠ 0 := hpos
    rw [Service.run, serve_eq hpos, ih hpos', count_record, List.map_cons, List.count_cons]
    split_ifs with heq
    · rw [beq_iff_eq.1 heq]
      omega
    · omega

/-! ## The competition -/

/-- All places are taken or every deserving key has one, and no deserving key without a place has
a higher count than a member. -/
structure Leading (topK : TopK κ) : Prop where
  valid : topK.Valid
  heap : topK.members.Valid
  pos : ∀ (key : κ) (score : Nat), topK.members.scores[key]? = some score → 1 ≤ score
  complete : topK.size = topK.k ∨
    ∀ key, topK.threshold ≤ topK.count key → 1 ≤ topK.count key → key ∈ topK.members.scores
  le_member : ∀ key other, key ∉ topK.members.scores → topK.threshold ≤ topK.count key →
    other ∈ topK.members.scores → topK.count key ≤ topK.count other

theorem leading_empty (k threshold : Nat) : (empty k threshold : TopK κ).Leading where
  valid := valid_empty k threshold
  heap := LazyHeap.valid_empty
  pos key score hscore := by simp [empty, LazyHeap.empty] at hscore
  complete := .inr fun key _ hpos ↦ by simp [empty, count] at hpos
  le_member key other _ _ hother := by simp [empty, LazyHeap.empty] at hother

section Competed

variable {members after : LazyHeap κ Nat} {k threshold count : Nat}

theorem Competed.valid (h : Competed members k threshold key count after)
    (hvalid : members.Valid) : after.Valid := by
  cases h with
  | low hlow => exact hvalid
  | renewed hhigh hmember => exact (hvalid.update key count).maybeRebuild rebuildFactor
  | entered hhigh hnew hroom => exact hvalid.update key count
  | beaten hhigh hnew hfull hbeaten => exact hvalid.dropStale
  | ousted victim lowest hhigh hnew hfull hpeek hhigher =>
    exact hvalid.dropStale.pop?.update key count

/-- Members leave one at a time, and only for a key that takes the place. -/
theorem Competed.size_le (h : Competed members k threshold key count after) :
    members.size ≤ after.size := by
  cases h with
  | low hlow => exact Nat.le_refl _
  | renewed hhigh hmember =>
    rw [LazyHeap.size, LazyHeap.size, LazyHeap.scores_maybeRebuild]
    exact Std.HashMap.size_le_size_insert
  | entered hhigh hnew hroom => exact Std.HashMap.size_le_size_insert
  | beaten hhigh hnew hfull hbeaten =>
    exact Nat.le_of_eq (congrArg Std.HashMap.size (LazyHeap.scores_dropStale members).symm)
  | ousted victim lowest hhigh hnew hfull hpeek hhigher =>
    have hnew' : key ∉ members.scores.erase victim := by
      rw [Std.HashMap.mem_erase]
      exact fun hmem ↦ not_mem_of_getElem? hnew hmem.2
    rw [LazyHeap.size, LazyHeap.size, LazyHeap.scores_update, LazyHeap.scores_pop?_peek? hpeek,
      Std.HashMap.size_insert, if_neg hnew',
      size_erase_of_getElem? (LazyHeap.score?_of_peek? hpeek)]
    omega

end Competed

/-- What an access comes to for the members: they stay, or the key takes a free place or that of
a member of least count. -/
inductive Reseated (topK : TopK κ) (key : κ) (after : Std.HashMap κ Nat) : Prop
  | stayed (hmem : ∀ other, other ∈ after ↔ other ∈ topK.members.scores)
    (hbeaten : key ∉ topK.members.scores → topK.threshold ≤ topK.count key + 1 →
      topK.k ≤ topK.size ∧ ∀ other ∈ topK.members.scores, topK.count key + 1 ≤ topK.count other)
  | entered (hmem : ∀ other, other ∈ after ↔ other = key ∨ other ∈ topK.members.scores)
    (hroom : topK.size < topK.k)
  | ousted (victim : κ)
    (hmem : ∀ other, other ∈ after ↔
      other = key ∨ other ∈ topK.members.scores ∧ other ≠ victim)
    (hfull : topK.k ≤ topK.size) (hvictim : victim ∈ topK.members.scores)
    (hleast : ∀ other ∈ topK.members.scores, topK.count victim ≤ topK.count other)
    (hhigher : topK.count victim ≤ topK.count key)

/-- A member that surfaces in the heap has the least count. -/
theorem Leading.le_of_peek? (h : topK.Leading) {victim other : κ} {lowest : Nat}
    (hpeek : topK.members.peek?.1 = some (victim, lowest)) (hother : other ∈ topK.members.scores) :
    lowest ≤ topK.count other := by
  obtain ⟨score, hscore⟩ := mem_iff_exists_getElem?.1 hother
  rw [(h.valid.scored other score hscore).1]
  exact Nat.isLE_compare.1 (h.heap.isLE_of_peek? hpeek hscore)

theorem Leading.reseated (h : topK.Leading) (key : κ) :
    Reseated topK key (topK.record key).members.scores := by
  have hcompeted := topK.competed_record key
  generalize (topK.record key).members = after at hcompeted ⊢
  cases hcompeted with
  | low hlow =>
    refine .stayed (fun other ↦ Iff.rfl) ?_
    intro _ hhigh
    omega
  | renewed hhigh hmember =>
    refine .stayed ?_ fun hnew ↦ absurd hmember hnew
    intro other
    rw [LazyHeap.scores_maybeRebuild, LazyHeap.scores_update, Std.HashMap.mem_insert, beq_iff_eq]
    exact or_iff_right_of_imp fun heq ↦ heq ▸ hmember
  | entered hhigh hnew hroom =>
    refine .entered ?_ hroom
    intro other
    rw [LazyHeap.scores_update, Std.HashMap.mem_insert, beq_iff_eq, eq_comm]
  | beaten hhigh hnew hfull hbeaten =>
    have hscores : topK.members.peek?.2.scores = topK.members.scores :=
      LazyHeap.scores_dropStale topK.members
    refine .stayed (fun other ↦ by rw [hscores]) ?_
    intro _ _
    refine ⟨hfull, ?_⟩
    intro other hother
    cases hpeek : topK.members.peek?.1 with
    | none => exact absurd hother (not_mem_of_getElem? (h.heap.getElem?_of_peek? hpeek other))
    | some top => exact (hbeaten top hpeek).trans (h.le_of_peek? hpeek hother)
  | ousted victim lowest hhigh hnew hfull hpeek hhigher =>
    have hget := LazyHeap.score?_of_peek? hpeek
    have hcount := (h.valid.scored victim lowest hget).1
    refine .ousted victim ?_ hfull (mem_of_getElem? hget) ?_ ?_
    · intro other
      rw [LazyHeap.scores_update, LazyHeap.scores_pop?_peek? hpeek, Std.HashMap.mem_insert,
        Std.HashMap.mem_erase, beq_iff_eq, beq_eq_false_iff_ne, eq_comm, ne_comm, and_comm]
    · intro other hother
      rw [hcount]
      exact h.le_of_peek? hpeek hother
    · omega

theorem Leading.complete_record (h : topK.Leading) (key : κ) :
    (topK.record key).size = topK.k ∨ ∀ other, topK.threshold ≤ (topK.record key).count other →
      1 ≤ (topK.record key).count other → other ∈ (topK.record key).members.scores := by
  by_cases hfull : topK.size = topK.k
  · left
    exact le_antisymm (h.valid.record key).size_le (hfull ▸ (topK.competed_record key).size_le)
  · right
    have hall := h.complete.resolve_left hfull
    have hroom := lt_of_le_of_ne h.valid.size_le hfull
    intro other hhigh hpos
    -- Only the accessed key may deserve a place that it did not deserve before.
    by_cases heq : other = key
    · subst heq
      rw [count_record_self] at hhigh
      cases h.reseated other with
      | stayed hmem hbeaten =>
        rw [hmem]
        by_contra hnew
        exact Nat.not_le_of_lt hroom (hbeaten hnew hhigh).1
      | entered hmem _ => exact (hmem other).2 (.inl rfl)
      | ousted victim hmem => exact (hmem other).2 (.inl rfl)
    · rw [count_record_of_ne heq] at hhigh hpos
      have hold := hall other hhigh hpos
      cases h.reseated key with
      | stayed hmem => exact (hmem other).2 hold
      | entered hmem => exact (hmem other).2 (.inr hold)
      | ousted victim hmem hfull => exact absurd hfull (Nat.not_le_of_lt hroom)

theorem Leading.le_member_record (h : topK.Leading) {first second : κ}
    (hfirst : first ∉ (topK.record key).members.scores)
    (hhigh : topK.threshold ≤ (topK.record key).count first)
    (hsecond : second ∈ (topK.record key).members.scores) :
    (topK.record key).count first ≤ (topK.record key).count second := by
  have hgrow := topK.count_le_record key second
  cases h.reseated key with
  | stayed hmem hbeaten =>
    rw [hmem] at hfirst hsecond
    by_cases heq : first = key
    · subst heq
      rw [count_record_self] at hhigh ⊢
      calc
        topK.count first + 1 ≤ topK.count second := (hbeaten hfirst hhigh).2 second hsecond
        _ ≤ (topK.record first).count second := hgrow
    · rw [count_record_of_ne heq] at hhigh ⊢
      exact (h.le_member first second hfirst hhigh hsecond).trans hgrow
  -- With places free before, every key of a count above zero had one.
  | entered hmem hroom =>
    rw [hmem, not_or] at hfirst
    rw [count_record_of_ne hfirst.1] at hhigh ⊢
    have hall := h.complete.resolve_left (Nat.ne_of_lt hroom) first hhigh
    have hzero : topK.count first = 0 := by
      by_contra hne
      exact hfirst.2 (hall (Nat.pos_of_ne_zero hne))
    rw [hzero]
    exact Nat.zero_le _
  | ousted victim hmem hfull hvictim hleast hhigher =>
    rw [hmem, not_or, not_and_not_right] at hfirst
    rw [count_record_of_ne hfirst.1] at hhigh ⊢
    -- The victim had the lowest count of all members, so its successor outdoes all left out.
    have hle : topK.count first ≤ topK.count victim := by
      by_cases hold : first ∈ topK.members.scores
      · rw [hfirst.2 hold]
      · exact h.le_member first victim hold hhigh hvictim
    rcases (hmem second).1 hsecond with rfl | hstays
    · rw [count_record_self]
      exact Nat.le_succ_of_le (hle.trans hhigher)
    · calc
        topK.count first ≤ topK.count victim := hle
        _ ≤ topK.count second := hleast second hstays.1
        _ ≤ (topK.record key).count second := hgrow

theorem Leading.record (h : topK.Leading) (key : κ) : (topK.record key).Leading where
  valid := h.valid.record key
  heap := (topK.competed_record key).valid h.heap
  pos other score hscore := by
    rcases (topK.ranked_record key).score_cases hscore with ⟨-, rfl, -⟩ | ⟨hold, -⟩
    · exact Nat.succ_pos _
    · exact h.pos other score hold
  complete := h.complete_record key
  le_member _ _ hfirst hhigh hsecond := h.le_member_record hfirst hhigh hsecond

theorem Leading.run (h : topK.Leading) (calls : List (Call κ)) :
    (serve.run topK calls).Leading := by
  apply serve.run_invariant (P := Leading) _ h
  intro state call hstate
  rw [serve, TopK.access]
  split_ifs
  · exact hstate
  · exact hstate.record call.key

/-! ## The leaders -/

/-- The hot keys after some accesses. They are `k` keys, or all there are, of those accessed often
enough; their scores are exact; no other deserving key has been accessed more often than any of
them; and the more accessed come first. -/
structure Leaders [Ord κ] (k threshold : Nat) (accesses : List κ) (topK : TopK κ) : Prop where
  count_eq : ∀ key, topK.count key = accesses.count key
  nodup_hotKeys : topK.hotKeys.Nodup
  mem_hotKeys : ∀ key, key ∈ topK.hotKeys ↔ topK.isHot key = true
  length_hotKeys :
    topK.hotKeys.length = min k {key | max threshold 1 ≤ accesses.count key}.ncard
  score?_eq : ∀ key, topK.isHot key = true →
    topK.members.score? key = some (accesses.count key) ∧ threshold ≤ accesses.count key
  le_leader : ∀ key other, topK.isHot key = false → threshold ≤ accesses.count key →
    topK.isHot other = true → accesses.count key ≤ accesses.count other
  pairwise_hotKeys :
    topK.hotKeys.Pairwise fun first second ↦ accesses.count second ≤ accesses.count first

section Leaders

variable [Ord κ]

/-- The ranking is in the order of the counts, whatever the order of the keys. -/
theorem Valid.pairwise_hotKeys (h : topK.Valid) :
    topK.hotKeys.Pairwise fun first second ↦ topK.count second ≤ topK.count first := by
  have hcount {entry : κ × Nat} (hmem : entry ∈ topK.ranking) : topK.count entry.1 = entry.2 := by
    rw [ranking, List.mem_mergeSort] at hmem
    exact (h.scored _ _ (Std.HashMap.mem_toList_iff_getElem?_eq_some.1 hmem)).1
  have hsorted : topK.ranking.Pairwise fun first second ↦ second.2 ≤ first.2 := by
    apply pairwise_mergeSort
    · intro a b c hab hbc
      exact hbc.trans hab
    · rintro ⟨a, m⟩ ⟨b, n⟩ hle
      simp only at hle
      split_ifs at hle with heq
      · exact Nat.le_of_eq heq.symm
      · exact Nat.le_of_lt (of_decide_eq_true hle)
    · rintro ⟨a, m⟩ ⟨b, n⟩ hnot
      simp only at hnot
      split_ifs at hnot with heq
      · exact Nat.le_of_eq heq
      · exact Nat.le_of_not_lt (of_decide_eq_false hnot)
  rw [hotKeys, List.pairwise_map]
  apply List.Pairwise.imp_of_mem _ hsorted
  intro first second hfirst hsecond hle
  rwa [hcount hfirst, hcount hsecond]

omit [LawfulBEq κ] [Ord κ] in
theorem isHot_iff_mem : topK.isHot key = true ↔ key ∈ topK.members.scores :=
  Std.HashMap.contains_iff_mem

theorem Leading.length_hotKeys (h : topK.Leading) {accesses : List κ}
    (hcount : ∀ key, topK.count key = accesses.count key) :
    topK.hotKeys.length =
      min topK.k {key | max topK.threshold 1 ≤ accesses.count key}.ncard := by
  have hlength : topK.hotKeys.length = topK.size := by
    apply length_eq_size topK.nodup_hotKeys
    intro key
    rw [mem_hotKeys, isHot_iff_mem]
  have hfinite : {key | max topK.threshold 1 ≤ accesses.count key}.Finite := by
    apply (List.finite_toSet accesses).subset
    intro key hkey
    exact List.count_pos_iff.1 (Nat.le_trans (Nat.le_max_right _ _) hkey)
  have hsub : {key | key ∈ topK.hotKeys} ⊆ {key | max topK.threshold 1 ≤ accesses.count key} := by
    intro key hkey
    obtain ⟨score, hscore⟩ := mem_iff_exists_getElem?.1 (isHot_iff_mem.1 (mem_hotKeys.1 hkey))
    obtain ⟨hscored, hhigh⟩ := h.valid.scored key score hscore
    change max topK.threshold 1 ≤ accesses.count key
    rw [← hcount, hscored]
    exact Nat.max_le.2 ⟨hhigh, h.pos key score hscore⟩
  have hle := Set.ncard_le_ncard hsub hfinite
  rw [ncard_setOf_mem topK.nodup_hotKeys, hlength] at hle
  rw [hlength]
  rcases h.complete with hfull | hall
  · omega
  · have hsup : {key | max topK.threshold 1 ≤ accesses.count key} ⊆ {key | key ∈ topK.hotKeys} := by
      intro key hkey
      change max topK.threshold 1 ≤ accesses.count key at hkey
      rw [← hcount, Nat.max_le] at hkey
      exact mem_hotKeys.2 (isHot_iff_mem.2 (hall key hkey.1 hkey.2))
    rw [← hsub.antisymm hsup, ncard_setOf_mem topK.nodup_hotKeys, hlength]
    exact (Nat.min_eq_right h.valid.size_le).symm

/-- With any number of places and any threshold the hot keys are leaders after every run. -/
theorem leaders_of_run {k : Nat} (hpos : 1 ≤ k) (threshold : Nat) (calls : List (Call κ)) :
    Leaders k threshold (calls.map Call.key) (serve.run (empty k threshold) calls) := by
  have hcount (key : κ) : (serve.run (empty k threshold) calls).count key =
      (calls.map Call.key).count key := by
    have hzero : (empty k threshold : TopK κ).count key = 0 := Std.HashMap.getD_empty
    have hplaces : (empty k threshold : TopK κ).k ≠ 0 := Nat.ne_of_gt hpos
    rw [count_run hplaces, hzero, Nat.zero_add]
  have hk : (serve.run (empty k threshold) calls).k = k := k_run _ calls
  have hthreshold : (serve.run (empty k threshold) calls).threshold = threshold :=
    threshold_run _ calls
  have h := (leading_empty k threshold).run calls
  generalize serve.run (empty k threshold) calls = topK at hcount hk hthreshold h
  refine {
    count_eq := hcount
    nodup_hotKeys := topK.nodup_hotKeys
    mem_hotKeys := fun key ↦ mem_hotKeys
    length_hotKeys := ?_
    score?_eq := ?_
    le_leader := ?_
    pairwise_hotKeys := ?_ }
  · rw [h.length_hotKeys hcount, hk, hthreshold]
  · intro key hhot
    obtain ⟨score, hscore⟩ := mem_iff_exists_getElem?.1 (isHot_iff_mem.1 hhot)
    obtain ⟨hscored, hhigh⟩ := h.valid.scored key score hscore
    rw [← hcount, hscored]
    exact ⟨hscore, hthreshold ▸ hhigh⟩
  · intro key other hcold hhigh hhot
    rw [← hcount] at hhigh
    rw [← hcount, ← hcount]
    apply h.le_member key other _ _ (isHot_iff_mem.1 hhot)
    · rw [← isHot_iff_mem, hcold]
      exact Bool.false_ne_true
    · rwa [hthreshold]
  · simp only [← hcount]
    exact h.valid.pairwise_hotKeys

/-- Key 3 is accessed twice and has a place; keys 1 and 2 compete for the other one. -/
theorem leaders_of_run_two :
    1 ≤ 2 ∧ Leaders 2 1 [1, 2, 3, 3] (serve.run (empty 2 1) [.put 1, .get 2, .put 3, .get 3]) ∧
      (serve.run (empty (κ := Nat) 2 1) [.put 1, .get 2, .put 3, .get 3]).count 3 = 2 := by
  have hpos : 1 ≤ 2 := by decide
  have hleaders := leaders_of_run hpos 1 [.put 1, .get 2, .put 3, .get 3]
  exact ⟨hpos, hleaders, hleaders.count_eq 3⟩

end Leaders

end TopK

end KeyHeat

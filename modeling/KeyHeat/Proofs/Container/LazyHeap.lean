import KeyHeat.Container.LazyHeap
import KeyHeat.Proofs.Container.MinHeap

/-!
# Lazy heaps as finite maps

The map of scores is what a lazy heap stands for. Pushing entries, rebuilding and dropping stale
entries leave it alone, and what surfaces on top is a key of the map with its score. As long as
the heap has an entry for the score of every key, that score is least.
-/

namespace KeyHeat

/-! ## Entries -/

namespace HeapEntry

variable {κ σ : Type} [Ord σ]

theorem le_iff (a b : HeapEntry κ σ) : a.le b = true ↔
    compare a.score b.score = .lt ∨ compare a.score b.score = .eq ∧ a.stamp ≤ b.stamp := by
  unfold le
  cases compare a.score b.score <;> simp

theorem isLE_of_le {a b : HeapEntry κ σ} (h : a.le b = true) :
    (compare a.score b.score).isLE = true := by
  rcases (le_iff a b).1 h with hlt | ⟨heq, -⟩
  · rw [hlt]
    rfl
  · rw [heq]
    rfl

variable [Std.TransOrd σ]

theorem le_total (a b : HeapEntry κ σ) : a.le b = true ∨ b.le a = true := by
  rw [le_iff, le_iff]
  cases hab : compare a.score b.score with
  | lt => exact .inl (.inl rfl)
  | eq =>
    rw [Std.OrientedCmp.eq_symm hab]
    exact (Nat.le_total a.stamp b.stamp).imp (fun hle ↦ .inr ⟨rfl, hle⟩) fun hle ↦ .inr ⟨rfl, hle⟩
  | gt => exact .inr (.inl (Std.OrientedCmp.lt_of_gt hab))

theorem le_trans (a b c : HeapEntry κ σ) (hab : a.le b = true) (hbc : b.le c = true) :
    a.le c = true := by
  rw [le_iff] at *
  rcases hab with hab | ⟨hab, hab'⟩ <;> rcases hbc with hbc | ⟨hbc, hbc'⟩
  · exact .inl (Std.TransCmp.lt_trans hab hbc)
  · exact .inl (Std.TransCmp.lt_of_lt_of_eq hab hbc)
  · exact .inl (Std.TransCmp.lt_of_eq_of_lt hab hbc)
  · exact .inr ⟨Std.TransCmp.eq_trans hab hbc, Nat.le_trans hab' hbc'⟩

end HeapEntry

namespace LazyHeap

variable {κ σ : Type} [BEq κ] [Hashable κ] [Ord σ]

/-! ## The map -/

/-- A change of score answers with what a read would have found. -/
theorem replace_eq (heap : LazyHeap κ σ) (key : κ) (score : σ) :
    heap.replace key score = (heap.score? key, heap.update key score) := rfl

omit [Ord σ] in
/-- A removal answers with what a read would have found. -/
theorem remove_eq (heap : LazyHeap κ σ) (key : κ) :
    heap.remove key = (heap.score? key, heap.erase key) := rfl

@[simp]
theorem scores_update (heap : LazyHeap κ σ) (key : κ) (score : σ) :
    (heap.update key score).scores = heap.scores.insert key score := rfl

theorem scores_foldl_pushEntry (pairs : List (κ × σ)) (heap : LazyHeap κ σ) :
    (pairs.foldl (fun heap (key, score) ↦ heap.pushEntry key score) heap).scores =
      heap.scores := by
  induction pairs generalizing heap with
  | nil => rfl
  | cons pair pairs ih => exact ih _

@[simp]
theorem scores_rebuild (heap : LazyHeap κ σ) : heap.rebuild.scores = heap.scores :=
  scores_foldl_pushEntry heap.toList _

@[simp]
theorem scores_maybeRebuild (heap : LazyHeap κ σ) (factor : Nat) :
    (heap.maybeRebuild factor).scores = heap.scores := by
  unfold maybeRebuild
  split
  · exact scores_rebuild heap
  · rfl

/-! ## The number of entries -/

theorem entryCount_update (heap : LazyHeap κ σ) (key : κ) (score : σ) :
    (heap.update key score).entryCount = heap.entryCount + 1 := rfl

theorem entryCount_foldl_pushEntry (pairs : List (κ × σ)) (heap : LazyHeap κ σ) :
    (pairs.foldl (fun heap (key, score) ↦ heap.pushEntry key score) heap).entryCount =
      heap.entryCount + pairs.length := by
  induction pairs generalizing heap with
  | nil => rfl
  | cons pair pairs ih =>
    have hpush : (heap.pushEntry pair.1 pair.2).entryCount = heap.entryCount + 1 := rfl
    rw [List.foldl_cons, ih, hpush, List.length_cons]
    omega

/-- A rebuilt heap has one entry for each key. -/
theorem entryCount_rebuild [LawfulBEq κ] (heap : LazyHeap κ σ) :
    heap.rebuild.entryCount = heap.size := by
  rw [rebuild, entryCount_foldl_pushEntry, toList, Std.HashMap.length_toList]
  exact Nat.zero_add _

theorem entryCount_maybeRebuild_le [LawfulBEq κ] (heap : LazyHeap κ σ) (factor : Nat) :
    (heap.maybeRebuild factor).entryCount ≤ max heap.size 1 * max factor 1 := by
  unfold maybeRebuild
  split_ifs with hmany
  · rw [entryCount_rebuild]
    calc
      heap.size ≤ max heap.size 1 * 1 := by
        rw [Nat.mul_one]
        exact Nat.le_max_left _ _
      _ ≤ max heap.size 1 * max factor 1 := Nat.mul_le_mul_left _ (Nat.le_max_right _ _)
  · exact Nat.le_of_not_lt hmany

/-! ## The entries of a key -/

/-- Whether some entry, live or stale, gives `key` the score `score`. -/
def HasEntry (heap : LazyHeap κ σ) (key : κ) (score : σ) : Prop :=
  ∃ entry ∈ heap.entries.toList, entry.key = key ∧ entry.score = score

theorem hasEntry_pushEntry (heap : LazyHeap κ σ) (key other : κ) (score score' : σ) :
    (heap.pushEntry key score).HasEntry other score' ↔
      key = other ∧ score = score' ∨ heap.HasEntry other score' := by
  have hperm := heap.entries.perm_insert HeapEntry.le ⟨score, heap.nextStamp, key⟩
  change (∃ entry ∈ (heap.entries.insert HeapEntry.le ⟨score, heap.nextStamp, key⟩).toList, _) ↔ _
  simp only [hperm.mem_iff, List.mem_cons, exists_eq_or_imp, HasEntry]

theorem hasEntry_foldl_pushEntry (pairs : List (κ × σ)) (heap : LazyHeap κ σ) (key : κ)
    (score : σ) :
    (pairs.foldl (fun heap (key, score) ↦ heap.pushEntry key score) heap).HasEntry key score ↔
      (key, score) ∈ pairs ∨ heap.HasEntry key score := by
  induction pairs generalizing heap with
  | nil => simp
  | cons pair pairs ih =>
    rw [List.foldl_cons, ih, hasEntry_pushEntry, List.mem_cons, Prod.ext_iff, eq_comm (a := key),
      eq_comm (a := score)]
    tauto

theorem hasEntry_rebuild [LawfulBEq κ] (heap : LazyHeap κ σ) (key : κ) (score : σ) :
    heap.rebuild.HasEntry key score ↔ heap.scores[key]? = some score := by
  rw [rebuild, hasEntry_foldl_pushEntry, toList, Std.HashMap.mem_toList_iff_getElem?_eq_some]
  simp [HasEntry, MinHeap.empty, MinHeap.toList, LeftistTree.toList]

theorem hasEntry_tail {heap : LazyHeap κ σ} {top : HeapEntry κ σ}
    (htop : heap.entries.peek? = some top) (key : κ) (score : σ) :
    heap.HasEntry key score ↔ top.key = key ∧ top.score = score ∨
      HasEntry { heap with entries := heap.entries.tail HeapEntry.le } key score := by
  simp only [HasEntry, (MinHeap.perm_tail HeapEntry.le htop).mem_iff, List.mem_cons,
    exists_eq_or_imp]

/-! ## Sound heaps -/

/-- The entries are in order, and there is one for the score of every key. -/
structure Valid (heap : LazyHeap κ σ) : Prop where
  ordered : heap.entries.Ordered HeapEntry.le
  hasEntry : ∀ (key : κ) (score : σ), heap.scores[key]? = some score → heap.HasEntry key score

section Valid

variable {heap : LazyHeap κ σ}

theorem valid_empty : (empty : LazyHeap κ σ).Valid where
  ordered := MinHeap.ordered_empty _
  hasEntry key score hscore := by simp [empty] at hscore

variable [Std.TransOrd σ]

theorem ordered_foldl_pushEntry (pairs : List (κ × σ))
    (h : heap.entries.Ordered HeapEntry.le) :
    (pairs.foldl (fun heap (key, score) ↦ heap.pushEntry key score) heap).entries.Ordered
      HeapEntry.le := by
  induction pairs generalizing heap with
  | nil => exact h
  | cons pair pairs ih => exact ih (h.insert HeapEntry.le_trans HeapEntry.le_total _)

variable [LawfulBEq κ]

theorem Valid.update (h : heap.Valid) (key : κ) (score : σ) : (heap.update key score).Valid where
  ordered := h.ordered.insert HeapEntry.le_trans HeapEntry.le_total _
  hasEntry other score' hscore := by
    apply (hasEntry_pushEntry { heap with scores := heap.scores.insert key score } key other _ _).2
    rw [scores_update, Std.HashMap.getElem?_insert] at hscore
    split_ifs at hscore with hkey
    · exact .inl ⟨beq_iff_eq.1 hkey, Option.some.inj hscore⟩
    · exact .inr (h.hasEntry other score' hscore)

omit [Std.TransOrd σ] in
/-- The entries of a key that is forgotten do no harm. -/
theorem Valid.erase (h : heap.Valid) (key : κ) : (heap.erase key).Valid where
  ordered := h.ordered
  hasEntry other score hscore := by
    change (heap.scores.erase key)[other]? = some score at hscore
    rw [Std.HashMap.getElem?_erase] at hscore
    split_ifs at hscore
    exact h.hasEntry other score hscore

theorem valid_rebuild (heap : LazyHeap κ σ) : heap.rebuild.Valid where
  ordered := ordered_foldl_pushEntry heap.toList (MinHeap.ordered_empty _)
  hasEntry key score hscore := by
    rw [scores_rebuild] at hscore
    exact (hasEntry_rebuild heap key score).2 hscore

theorem Valid.maybeRebuild (h : heap.Valid) (factor : Nat) : (heap.maybeRebuild factor).Valid := by
  unfold LazyHeap.maybeRebuild
  split_ifs
  · exact valid_rebuild heap
  · exact h

end Valid

/-! ## The top -/

variable [BEq σ]

/-- Nothing stale is on top. -/
def Settled (heap : LazyHeap κ σ) : Prop :=
  ∀ top, heap.entries.peek? = some top → heap.isLive top = true

/-- What dropping a stale entry from the top preserves is so when the heap has settled. -/
theorem dropStale_invariant {P : LazyHeap κ σ → Prop} {heap : LazyHeap κ σ} (h : P heap)
    (htail : ∀ heap top, P heap → heap.entries.peek? = some top → heap.isLive top = false →
      P { heap with entries := heap.entries.tail HeapEntry.le }) : P heap.dropStale := by
  suffices hsettle : ∀ fuel heap, P heap → P (dropStale.settle heap fuel) from hsettle _ heap h
  intro fuel
  induction fuel with
  | zero => exact fun heap h ↦ h
  | succ fuel ih =>
    intro heap h
    rw [dropStale.settle]
    cases htop : heap.entries.peek? with
    | none => exact h
    | some top =>
      cases hlive : heap.isLive top with
      | true =>
        simp only [hlive, if_true]
        exact h
      | false =>
        simp only [hlive, Bool.false_eq_true, if_false]
        exact ih _ (htail heap top h htop hlive)

@[simp]
theorem scores_dropStale (heap : LazyHeap κ σ) : heap.dropStale.scores = heap.scores :=
  dropStale_invariant (P := fun after ↦ after.scores = heap.scores) rfl fun _ _ hsame _ _ ↦ hsame

/-- There is fuel for every entry. -/
theorem settled_settle (heap : LazyHeap κ σ) {fuel : Nat} (hfuel : heap.entryCount ≤ fuel) :
    (dropStale.settle heap fuel).Settled := by
  induction fuel generalizing heap with
  | zero =>
    intro top htop
    have hpos := MinHeap.size_pos_of_peek? htop
    exact absurd (Nat.le_zero.1 hfuel) (Nat.ne_of_gt hpos)
  | succ fuel ih =>
    rw [dropStale.settle]
    cases htop : heap.entries.peek? with
    | none =>
      intro top hsome
      rw [htop] at hsome
      cases hsome
    | some top =>
      cases hlive : heap.isLive top with
      | true =>
        simp only [hlive, if_true]
        intro other hother
        rw [htop] at hother
        cases hother
        exact hlive
      | false =>
        simp only [hlive, Bool.false_eq_true, if_false]
        have hsize := heap.entries.size_tail HeapEntry.le
        apply ih { heap with entries := heap.entries.tail HeapEntry.le }
        change (heap.entries.tail HeapEntry.le).size ≤ fuel
        change heap.entries.size ≤ fuel + 1 at hfuel
        omega

theorem settled_dropStale (heap : LazyHeap κ σ) : heap.dropStale.Settled :=
  heap.settled_settle (Nat.le_refl _)

theorem Settled.dropStale_eq {heap : LazyHeap κ σ} (h : heap.Settled) : heap.dropStale = heap := by
  unfold dropStale
  cases heap.entryCount with
  | zero => rfl
  | succ fuel =>
    rw [dropStale.settle]
    cases htop : heap.entries.peek? with
    | none => rfl
    | some top => simp only [h top htop, if_true]

theorem entryCount_dropStale_le (heap : LazyHeap κ σ) :
    heap.dropStale.entryCount ≤ heap.entryCount := by
  apply dropStale_invariant (P := fun after ↦ after.entryCount ≤ heap.entryCount) (Nat.le_refl _)
  intro after top hle _ _
  have hsize := after.entries.size_tail HeapEntry.le
  change (after.entries.tail HeapEntry.le).size ≤ heap.entryCount
  change after.entries.size ≤ heap.entryCount at hle
  omega

/-- What is removed is what would be seen. -/
theorem pop?_fst (heap : LazyHeap κ σ) : heap.pop?.1 = heap.peek?.1 := by
  unfold pop? peek?
  dsimp only
  cases heap.dropStale.entries.peek? <;> rfl

/-- Looking at the top first makes no difference to what is removed. -/
theorem pop?_peek? (heap : LazyHeap κ σ) : heap.peek?.2.pop? = heap.pop? := by
  have hpeek : heap.peek?.2 = heap.dropStale := rfl
  unfold pop?
  rw [hpeek, (settled_dropStale heap).dropStale_eq]

theorem pop?_snd_of_top {heap : LazyHeap κ σ} {top : HeapEntry κ σ}
    (htop : heap.dropStale.entries.peek? = some top) :
    heap.pop?.2 = ⟨heap.scores.erase top.key, heap.dropStale.entries.tail HeapEntry.le,
      heap.dropStale.nextStamp⟩ := by
  unfold pop?
  simp only [htop, scores_dropStale]

theorem pop?_snd_of_none {heap : LazyHeap κ σ} (hnone : heap.pop?.1 = none) :
    heap.pop?.2 = heap.dropStale := by
  rw [pop?_fst] at hnone
  have htop : heap.dropStale.entries.peek? = none := Option.map_eq_none_iff.1 hnone
  unfold pop?
  simp only [htop]

theorem scores_pop? {heap : LazyHeap κ σ} {key : κ} {score : σ}
    (h : heap.pop?.1 = some (key, score)) : heap.pop?.2.scores = heap.scores.erase key := by
  rw [pop?_fst] at h
  obtain ⟨top, htop, heq⟩ := Option.map_eq_some_iff.1 h
  obtain ⟨rfl, rfl⟩ := Prod.mk.inj heq
  rw [pop?_snd_of_top htop]

/-- Removing a key takes an entry with it. -/
theorem entryCount_pop?_lt {heap : LazyHeap κ σ} {best : κ × σ} (h : heap.pop?.1 = some best) :
    heap.pop?.2.entryCount < heap.entryCount := by
  rw [pop?_fst] at h
  obtain ⟨top, htop, -⟩ := Option.map_eq_some_iff.1 h
  have hpos := MinHeap.size_pos_of_peek? htop
  have hsize := heap.dropStale.entries.size_tail HeapEntry.le
  have hle := heap.entryCount_dropStale_le
  rw [pop?_snd_of_top htop]
  change (heap.dropStale.entries.tail HeapEntry.le).size < heap.entryCount
  change heap.dropStale.entries.size ≤ heap.entryCount at hle
  omega

/-- The key that was seen is the one that is removed. -/
theorem scores_pop?_peek? {heap : LazyHeap κ σ} {key : κ} {score : σ}
    (h : heap.peek?.1 = some (key, score)) :
    heap.peek?.2.pop?.2.scores = heap.scores.erase key := by
  rw [← pop?_fst] at h
  rw [pop?_peek?, scores_pop? h]

theorem score?_of_peek? [LawfulBEq σ] {heap : LazyHeap κ σ} {key : κ} {score : σ}
    (h : heap.peek?.1 = some (key, score)) : heap.scores[key]? = some score := by
  obtain ⟨top, htop, heq⟩ := Option.map_eq_some_iff.1 h
  obtain ⟨rfl, rfl⟩ := Prod.mk.inj heq
  have hlive := settled_dropStale heap top htop
  rwa [isLive, scores_dropStale, beq_iff_eq] at hlive

/-! ## The least score -/

section Least

variable [Std.TransOrd σ] [LawfulBEq σ] {heap : LazyHeap κ σ}

/-- An entry that is not live goes without loss. -/
theorem Valid.tail_of_stale (h : heap.Valid) {top : HeapEntry κ σ}
    (htop : heap.entries.peek? = some top) (hstale : heap.isLive top = false) :
    Valid { heap with entries := heap.entries.tail HeapEntry.le } where
  ordered := h.ordered.tail HeapEntry.le_trans HeapEntry.le_total
  hasEntry key score hscore := by
    apply ((hasEntry_tail htop key score).1 (h.hasEntry key score hscore)).resolve_left
    -- An entry with the score of its key would be live.
    rintro ⟨rfl, rfl⟩
    rw [isLive, beq_eq_false_iff_ne] at hstale
    exact hstale hscore

theorem Valid.dropStale (h : heap.Valid) : heap.dropStale.Valid :=
  dropStale_invariant h fun _ _ h htop hstale ↦ h.tail_of_stale htop hstale

/-- The entry is there and has a live one before it. -/
def Behind (heap : LazyHeap κ σ) (entry : HeapEntry κ σ) : Prop :=
  entry ∈ heap.entries.toList ∧
    ∃ live ∈ heap.entries.toList, heap.isLive live = true ∧ entry.le live = false

omit [LawfulBEq σ] in
/-- A stale entry on top goes without those behind a live one. -/
theorem Valid.behind_tail_of_stale (h : heap.Valid) {top entry : HeapEntry κ σ}
    (htop : heap.entries.peek? = some top) (hstale : heap.isLive top = false)
    (hbehind : heap.Behind entry) :
    Behind { heap with entries := heap.entries.tail HeapEntry.le } entry := by
  obtain ⟨hmem, live, hlive, hfresh, hlater⟩ := hbehind
  have hfirst := h.ordered.le_of_peek? HeapEntry.le_total htop live hlive
  refine ⟨?_, live, ?_, hfresh, hlater⟩
  · apply MinHeap.mem_tail_of_ne htop hmem
    rintro rfl
    rw [hlater] at hfirst
    cases hfirst
  · apply MinHeap.mem_tail_of_ne htop hlive
    rintro rfl
    rw [hstale] at hfresh
    cases hfresh

theorem Valid.behind_dropStale (h : heap.Valid) {entry : HeapEntry κ σ}
    (hbehind : heap.Behind entry) : heap.dropStale.Behind entry := by
  have hboth : heap.dropStale.Valid ∧ heap.dropStale.Behind entry := by
    apply dropStale_invariant (P := fun after ↦ after.Valid ∧ after.Behind entry) ⟨h, hbehind⟩
    intro after top hafter htop hstale
    exact ⟨hafter.1.tail_of_stale htop hstale, hafter.1.behind_tail_of_stale htop hstale hafter.2⟩
  exact hboth.2

/-- The key on top has a least score. -/
theorem Valid.isLE_of_peek? (h : heap.Valid) {key other : κ} {score score' : σ}
    (hpeek : heap.peek?.1 = some (key, score)) (hother : heap.scores[other]? = some score') :
    (compare score score').isLE = true := by
  obtain ⟨top, htop, heq⟩ := Option.map_eq_some_iff.1 hpeek
  obtain ⟨rfl, rfl⟩ := Prod.mk.inj heq
  rw [← scores_dropStale] at hother
  obtain ⟨entry, hentry, rfl, rfl⟩ := h.dropStale.hasEntry other score' hother
  exact HeapEntry.isLE_of_le (h.dropStale.ordered.le_of_peek? HeapEntry.le_total htop entry hentry)

/-- Nothing is on top only if there is no key at all. -/
theorem Valid.getElem?_of_peek? (h : heap.Valid) (hpeek : heap.peek?.1 = none) (key : κ) :
    heap.scores[key]? = none := by
  have hnil := MinHeap.toList_eq_nil (Option.map_eq_none_iff.1 hpeek)
  rw [Option.eq_none_iff_forall_ne_some]
  intro score hscore
  rw [← scores_dropStale] at hscore
  obtain ⟨entry, hentry, -⟩ := h.dropStale.hasEntry key score hscore
  rw [hnil] at hentry
  cases hentry

variable [LawfulBEq κ]

theorem Valid.pop? (h : heap.Valid) : heap.pop?.2.Valid := by
  cases hpop : heap.pop?.1 with
  | none =>
    rw [pop?_snd_of_none hpop]
    exact h.dropStale
  | some best =>
    rw [pop?_fst] at hpop
    obtain ⟨top, htop, -⟩ := Option.map_eq_some_iff.1 hpop
    rw [pop?_snd_of_top htop]
    refine ⟨h.dropStale.ordered.tail HeapEntry.le_trans HeapEntry.le_total, ?_⟩
    intro key score hscore
    rw [Std.HashMap.getElem?_erase] at hscore
    split_ifs at hscore with hkey
    rw [← scores_dropStale] at hscore
    have hentry := (hasEntry_tail htop key score).1 (h.dropStale.hasEntry key score hscore)
    apply hentry.resolve_left
    rintro ⟨rfl, -⟩
    exact hkey BEq.rfl

omit [LawfulBEq κ] in
/-- An entry behind a live one stays when the first key is removed. -/
theorem Valid.mem_pop?_of_behind (h : heap.Valid) {entry : HeapEntry κ σ}
    (hbehind : heap.Behind entry) : entry ∈ heap.pop?.2.entries.toList := by
  obtain ⟨hmem, live, hlive, -, hlater⟩ := h.behind_dropStale hbehind
  cases hpop : heap.pop?.1 with
  | none =>
    rw [pop?_snd_of_none hpop]
    exact hmem
  | some best =>
    rw [pop?_fst] at hpop
    obtain ⟨top, htop, -⟩ := Option.map_eq_some_iff.1 hpop
    have hfirst := h.dropStale.ordered.le_of_peek? HeapEntry.le_total htop live hlive
    rw [pop?_snd_of_top htop]
    apply MinHeap.mem_tail_of_ne htop hmem
    rintro rfl
    rw [hlater] at hfirst
    cases hfirst

end Least

end LazyHeap

end KeyHeat

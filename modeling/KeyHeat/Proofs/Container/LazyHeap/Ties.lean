import KeyHeat.Proofs.Container.LazyHeap.Map

/-!
# Which of several keys of least score comes out

Entries of equal score surface by age, and an entry is taken for live as soon as its key has its
score again. So the key that comes out has the oldest entry of the least score, which may be left
over from an update that was overwritten or taken back. Where no such entry is left, the key comes
out whose latest update is furthest back.
-/

namespace KeyHeat.LazyHeap

variable {κ σ : Type}

/-! ## Updates -/

/-- The key and the score of an update. -/
def Request.updated : Request κ σ → List (κ × σ)
  | .update key score => [(key, score)]
  | _ => []

/-- Whether the request may replace the entries of the heap by new ones. -/
def Request.rebuilds : Request κ σ → Bool
  | .rebuild => true
  | .maybeRebuild _ => true
  | _ => false

/-- The updates among some requests, in order. -/
def updates (requests : List (Request κ σ)) : List (κ × σ) := requests.flatMap Request.updated

/-- The latest update of the key has this position. -/
structure LatestAt (log : List (κ × σ)) (key : κ) (position : Nat) : Prop where
  exists_score : ∃ score, log[position]? = some (key, score)
  not_later : ∀ later score, position < later → log[later]? ≠ some (key, score)

/-- Of all keys of least score, this one has its latest update furthest back. -/
structure FirstInLine [Ord σ] (log : List (κ × σ)) (map : κ → Option σ) (key : κ) (score : σ) :
    Prop where
  least : Least map key score
  lt : ∀ rival position position', rival ≠ key → map rival = some score →
    LatestAt log key position → LatestAt log rival position' → position < position'

section Log

variable {log : List (κ × σ)} {key other : κ} {position : Nat}

theorem latestAt_concat (log : List (κ × σ)) (key : κ) (score : σ) :
    LatestAt (log ++ [(key, score)]) key log.length := by
  refine ⟨⟨score, List.getElem?_concat_length⟩, ?_⟩
  intro later score' hlater
  have hnone : (log ++ [(key, score)])[later]? = none := by
    rw [List.getElem?_eq_none_iff, List.length_append, List.length_singleton]
    exact hlater
  rw [hnone]
  exact (Option.some_ne_none _).symm

/-- An update of another key leaves the latest one where it is. -/
theorem LatestAt.concat (h : LatestAt log key position) (hne : other ≠ key) (score : σ) :
    LatestAt (log ++ [(other, score)]) key position := by
  obtain ⟨score', hscore⟩ := h.exists_score
  refine ⟨⟨score', ?_⟩, ?_⟩
  · rw [List.getElem?_append_left (List.getElem?_eq_some_iff.1 hscore).1, hscore]
  · intro later score'' hlater hget
    rcases Nat.lt_trichotomy later log.length with hlt | rfl | hgt
    · rw [List.getElem?_append_left hlt] at hget
      exact h.not_later later score'' hlater hget
    · rw [List.getElem?_concat_length] at hget
      exact hne (Prod.mk.inj (Option.some.inj hget)).1
    · have hnone : (log ++ [(other, score)])[later]? = none := by
        rw [List.getElem?_eq_none_iff, List.length_append, List.length_singleton]
        exact hgt
      rw [hnone] at hget
      cases hget

end Log

variable [BEq κ] [Hashable κ]

/-! ## Entries -/

/-- The heap has an entry with this stamp that gives the key the score. -/
def Pending (heap : LazyHeap κ σ) (key : κ) (score : σ) (stamp : Nat) : Prop :=
  (⟨score, stamp, key⟩ : HeapEntry κ σ) ∈ heap.entries.toList

/-- The rival has the same score, and an entry of an earlier update of its own that is older than
all entries of the key. -/
structure Preempts (log : List (κ × σ)) (heap : LazyHeap κ σ) (key : κ) (score : σ) (rival : κ) :
    Prop where
  ne : rival ≠ key
  score_eq : heap.score? rival = some score
  leftover : ∃ stamp, heap.Pending rival score stamp ∧ ¬LatestAt log rival stamp ∧
    ∀ own, heap.Pending key score own → stamp < own

variable [Ord σ] {heap : LazyHeap κ σ} {log : List (κ × σ)}

theorem pending_update (heap : LazyHeap κ σ) (key other : κ) (score score' : σ) (stamp : Nat) :
    (heap.update key score).Pending other score' stamp ↔
      score' = score ∧ stamp = heap.nextStamp ∧ other = key ∨ heap.Pending other score' stamp := by
  have hperm := heap.entries.perm_insert HeapEntry.le ⟨score, heap.nextStamp, key⟩
  change _ ∈ (heap.entries.insert HeapEntry.le ⟨score, heap.nextStamp, key⟩).toList ↔ _
  rw [hperm.mem_iff, List.mem_cons, HeapEntry.mk.injEq]
  rfl

/-! ## Stamps -/

/-- Entries are stamped with the position of their update, and the latest update of each key in the
map still has its entry. -/
structure Stamped (log : List (κ × σ)) (heap : LazyHeap κ σ) : Prop where
  valid : heap.Valid
  nextStamp_eq : heap.nextStamp = log.length
  logged : ∀ key score stamp, heap.Pending key score stamp → log[stamp]? = some (key, score)
  kept : ∀ key score, heap.score? key = some score →
    ∃ stamp, LatestAt log key stamp ∧ heap.Pending key score stamp

theorem stamped_empty : Stamped [] (empty : LazyHeap κ σ) where
  valid := valid_empty
  nextStamp_eq := rfl
  logged _ _ _ hpending := (List.not_mem_nil hpending).elim
  kept key score hscore := by simp [score?, empty] at hscore

namespace Stamped

variable {key : κ} {score : σ}

/-- Entries with the same stamp are of the same key. -/
theorem key_unique (h : Stamped log heap) {other : κ} {score' : σ} {stamp : Nat}
    (hpending : heap.Pending key score stamp) (hother : heap.Pending other score' stamp) :
    other = key := by
  have heq := (h.logged _ _ _ hpending).symm.trans (h.logged _ _ _ hother)
  exact (Prod.mk.inj (Option.some.inj heq)).1.symm

/-- Nothing changes for a map with fewer keys, as long as their latest entries are there. -/
theorem fewer {after : LazyHeap κ σ} (h : Stamped log heap) (hvalid : after.Valid)
    (hnext : after.nextStamp = heap.nextStamp)
    (hsub : after.entries.toList ⊆ heap.entries.toList)
    (hkept : ∀ key score, after.score? key = some score → heap.score? key = some score ∧
      ∀ stamp, heap.Pending key score stamp → after.Pending key score stamp) :
    Stamped log after where
  valid := hvalid
  nextStamp_eq := hnext.trans h.nextStamp_eq
  logged key score stamp hpending := h.logged key score stamp (hsub hpending)
  kept key score hscore := by
    obtain ⟨hbefore, hpending⟩ := hkept key score hscore
    obtain ⟨stamp, hlatest, hentry⟩ := h.kept key score hbefore
    exact ⟨stamp, hlatest, hpending stamp hentry⟩

variable [LawfulBEq κ]

theorem erase (h : Stamped log heap) (key : κ) : Stamped log (heap.erase key) := by
  apply h.fewer (h.valid.erase key) rfl (fun _ hmem ↦ hmem)
  intro other score hscore
  rw [score?_erase, assign] at hscore
  split_ifs at hscore
  exact ⟨hscore, fun _ hpending ↦ hpending⟩

theorem update [Std.TransOrd σ] (h : Stamped log heap) (key : κ) (score : σ) :
    Stamped (log ++ [(key, score)]) (heap.update key score) where
  valid := h.valid.update key score
  nextStamp_eq := by
    rw [List.length_append, ← h.nextStamp_eq]
    rfl
  logged other score' stamp hpending := by
    rcases (pending_update heap key other score score' stamp).1 hpending with
      ⟨rfl, rfl, rfl⟩ | hbefore
    · rw [h.nextStamp_eq]
      exact List.getElem?_concat_length
    · have hget := h.logged other score' stamp hbefore
      rw [List.getElem?_append_left (List.getElem?_eq_some_iff.1 hget).1, hget]
  kept other score' hscore := by
    rw [score?_update, assign] at hscore
    simp only [pending_update]
    split_ifs at hscore with heq
    · obtain rfl := beq_iff_eq.1 heq
      refine ⟨log.length, latestAt_concat log key score, .inl ⟨?_, h.nextStamp_eq.symm, rfl⟩⟩
      exact (Option.some.inj hscore).symm
    · obtain ⟨stamp, hlatest, hpending⟩ := h.kept other score' hscore
      exact ⟨stamp, hlatest.concat (by simpa using heq) score, .inr hpending⟩

end Stamped

/-! ## Stale entries -/

variable [BEq σ]

/-- Nothing but stale entries has gone. -/
structure Trimmed (before after : LazyHeap κ σ) : Prop where
  scores_eq : after.scores = before.scores
  nextStamp_eq : after.nextStamp = before.nextStamp
  subset : after.entries.toList ⊆ before.entries.toList
  live : ∀ entry ∈ before.entries.toList, before.isLive entry = true → entry ∈ after.entries.toList

theorem trimmed_dropStale (heap : LazyHeap κ σ) : Trimmed heap heap.dropStale := by
  apply dropStale_invariant ⟨rfl, rfl, fun _ hmem ↦ hmem, fun _ hmem _ ↦ hmem⟩
  intro after top h htop hstale
  refine ⟨h.scores_eq, h.nextStamp_eq, ?_, ?_⟩
  · intro entry hentry
    exact h.subset (MinHeap.mem_of_mem_tail htop hentry)
  · intro entry hentry hlive
    apply MinHeap.mem_tail_of_ne htop (h.live entry hentry hlive)
    rintro rfl
    rw [isLive, h.scores_eq] at hstale
    exact absurd (hlive.symm.trans hstale) (by decide)

variable [LawfulBEq σ] [Std.TransOrd σ]

omit [Ord σ] [Std.TransOrd σ] in
theorem isLive_iff {entry : HeapEntry κ σ} :
    heap.isLive entry = true ↔ heap.score? entry.key = some entry.score := beq_iff_eq

namespace Stamped

variable {key : κ} {score : σ}

theorem dropStale (h : Stamped log heap) : Stamped log heap.dropStale := by
  have htrimmed := trimmed_dropStale heap
  apply h.fewer h.valid.dropStale htrimmed.nextStamp_eq htrimmed.subset
  intro key score hscore
  rw [score?_of_scores_eq htrimmed.scores_eq] at hscore
  refine ⟨hscore, ?_⟩
  intro stamp hpending
  exact htrimmed.live _ hpending (isLive_iff.2 hscore)

variable [LawfulBEq κ]

/-- The entry that goes with a key is of that key, which is in the map no more. -/
theorem pop? (h : Stamped log heap) : Stamped log heap.pop?.2 := by
  have hdropped := h.dropStale
  cases hpop : heap.pop?.1 with
  | none =>
    rw [pop?_snd_of_none hpop]
    exact hdropped
  | some best =>
    have hscores := scores_pop? hpop
    rw [pop?_fst] at hpop
    obtain ⟨top, htop, rfl⟩ := Option.map_eq_some_iff.1 hpop
    have hrest := pop?_snd_of_top htop
    apply hdropped.fewer h.valid.pop? (by rw [hrest])
    · intro entry hentry
      rw [hrest] at hentry
      exact MinHeap.mem_of_mem_tail htop hentry
    · intro key score hscore
      rw [score?_of_scores_erase hscores, assign] at hscore
      split_ifs at hscore with hne
      rw [score?_of_scores_eq (scores_dropStale heap)]
      refine ⟨hscore, ?_⟩
      intro stamp hpending
      rw [hrest]
      apply MinHeap.mem_tail_of_ne htop hpending
      intro heq
      exact hne (beq_iff_eq.2 (congrArg HeapEntry.key heq).symm)

theorem serve (h : Stamped log heap) {request : Request κ σ} (hplain : request.rebuilds = false) :
    Stamped (log ++ request.updated) (heap.serve request).2 := by
  cases request with
  | update key score => exact h.update key score
  | remove key =>
    change Stamped (log ++ []) (heap.erase key)
    rw [List.append_nil]
    exact h.erase key
  | peek =>
    change Stamped (log ++ []) heap.dropStale
    rw [List.append_nil]
    exact h.dropStale
  | pop =>
    change Stamped (log ++ []) heap.pop?.2
    rw [List.append_nil]
    exact h.pop?
  | rebuild => cases hplain
  | maybeRebuild factor => cases hplain

theorem run (h : Stamped log heap) {requests : List (Request κ σ)}
    (hplain : ∀ request ∈ requests, request.rebuilds = false) :
    Stamped (log ++ updates requests) (heap.run requests) := by
  induction requests generalizing log heap with
  | nil =>
    rw [updates, List.flatMap_nil, List.append_nil]
    exact h
  | cons request requests ih =>
    rw [List.forall_mem_cons] at hplain
    rw [updates, List.flatMap_cons, ← List.append_assoc]
    exact ih (h.serve hplain.1) hplain.2

end Stamped

/-! ## The key that comes out -/

/-- The key that comes out has the oldest entry of its score. -/
theorem Valid.exists_oldest (h : heap.Valid) {key : κ} {score : σ}
    (hpop : heap.pop?.1 = some (key, score)) :
    ∃ stamp, heap.Pending key score stamp ∧ ∀ other stamp', heap.score? other = some score →
      heap.Pending other score stamp' → stamp ≤ stamp' := by
  rw [pop?_fst] at hpop
  obtain ⟨top, htop, heq⟩ := Option.map_eq_some_iff.1 hpop
  obtain ⟨rfl, rfl⟩ := Prod.mk.inj heq
  have hmem : top ∈ heap.dropStale.entries.toList := MinHeap.mem_of_peek? htop
  refine ⟨top.stamp, (trimmed_dropStale heap).subset hmem, ?_⟩
  intro other stamp hother hpending
  have hkept := (trimmed_dropStale heap).live _ hpending (isLive_iff.2 hother)
  have hle := h.dropStale.ordered.le_of_peek? HeapEntry.le_total htop _ hkept
  have hself : compare top.score top.score = .eq := Std.ReflCmp.compare_self
  rw [HeapEntry.le_iff, hself] at hle
  exact (hle.resolve_left (by decide)).2

variable [Std.LawfulEqOrd σ]

/-- The first key in line comes out unless another is preferred for an entry left over from an
update that is not its latest. -/
theorem Stamped.pop?_eq_iff {key : κ} {score : σ} (h : Stamped log heap)
    (hfirst : FirstInLine log heap.score? key score) :
    heap.pop?.1 = some (key, score) ↔ ∀ rival, ¬Preempts log heap key score rival := by
  constructor
  · intro hpop rival hpreempts
    obtain ⟨oldest, hown, hle⟩ := h.valid.exists_oldest hpop
    obtain ⟨stamp, hpending, -, hlt⟩ := hpreempts.leftover
    have hafter := hle rival stamp hpreempts.score_eq hpending
    have hbefore := hlt oldest hown
    omega
  · intro hnone
    cases hpop : heap.pop?.1 with
    | none =>
      rw [pop?_fst] at hpop
      have hmissing := h.valid.getElem?_of_peek? hpop key
      exact absurd (hmissing.symm.trans hfirst.least.score_eq) (Option.some_ne_none score).symm
    | some best =>
      obtain ⟨winner, score'⟩ := best
      have hleast : Least heap.score? winner score' := by
        rw [pop?_fst] at hpop
        exact h.valid.least_of_peek? hpop
      have hcompare : compare score' score = .eq := by
        apply Std.OrientedCmp.isLE_antisymm
        · exact hleast.isLE key score hfirst.least.score_eq
        · exact hfirst.least.isLE winner score' hleast.score_eq
      have hscore : score' = score := Std.LawfulEqCmp.eq_of_compare hcompare
      subst hscore
      by_contra hother
      have hne : winner ≠ key := fun heq ↦ hother (by rw [heq])
      obtain ⟨oldest, hoften, hle⟩ := h.valid.exists_oldest hpop
      obtain ⟨latest, hlatest, hown⟩ := h.kept key score' hfirst.least.score_eq
      refine hnone winner ⟨hne, hleast.score_eq, oldest, hoften, ?_, ?_⟩
      -- The key in line has an entry from before the latest update of the winner.
      · intro hwinner
        have hlt := hfirst.lt winner latest oldest hne hleast.score_eq hlatest hwinner
        have hge := hle key latest hfirst.least.score_eq hown
        omega
      · intro own hpending
        apply Nat.lt_of_le_of_ne (hle key own hfirst.least.score_eq hpending)
        rintro rfl
        exact hne (h.key_unique hpending hoften)

/-- How a heap breaks ties among keys of least score, after the updates of a log. -/
structure BreaksTies (log : List (κ × σ)) (heap : LazyHeap κ σ) : Prop where
  /-- An entry is stamped with the position of its update. -/
  logged : ∀ key score stamp, heap.Pending key score stamp → log[stamp]? = some (key, score)
  /-- The key that comes out has the oldest entry of its score. -/
  oldest : ∀ key score, heap.pop?.1 = some (key, score) → ∃ stamp, heap.Pending key score stamp ∧
    ∀ other stamp', heap.score? other = some score → heap.Pending other score stamp' →
      stamp ≤ stamp'
  /-- This is the first key in line unless another has an older entry of an earlier update. -/
  first_iff : ∀ key score, FirstInLine log heap.score? key score →
    (heap.pop?.1 = some (key, score) ↔ ∀ rival, ¬Preempts log heap key score rival)
  /-- No other key has one if none had the score before its latest update. -/
  first_of_new : ∀ key score, FirstInLine log heap.score? key score →
    (∀ rival position, rival ≠ key → heap.score? rival = some score →
      log[position]? = some (rival, score) → LatestAt log rival position) →
    heap.pop?.1 = some (key, score)

/-- After any requests without a rebuild the oldest entry of the least score decides. -/
theorem breaksTies_of_run [LawfulBEq κ] {requests : List (Request κ σ)}
    (hplain : ∀ request ∈ requests, request.rebuilds = false) :
    BreaksTies (updates requests) (empty.run requests) := by
  have h := (stamped_empty : Stamped [] (empty : LazyHeap κ σ)).run hplain
  rw [List.nil_append] at h
  refine {
    logged := h.logged
    oldest := fun _ _ hpop ↦ h.valid.exists_oldest hpop
    first_iff := fun _ _ hfirst ↦ h.pop?_eq_iff hfirst
    first_of_new := ?_ }
  intro key score hfirst hnew
  rw [h.pop?_eq_iff hfirst]
  intro rival hpreempts
  obtain ⟨stamp, hpending, hold, -⟩ := hpreempts.leftover
  exact hold (hnew rival stamp hpreempts.ne hpreempts.score_eq (h.logged _ _ _ hpending))

/-- Key 1 comes to the score of key 2 later and waits behind it. -/
theorem breaksTies_of_run_later :
    let requests : List (Request Nat Nat) := [.update 1 4, .update 2 5, .update 1 5]
    (∀ request ∈ requests, request.rebuilds = false) ∧
      BreaksTies (updates requests) (empty.run requests) ∧
      (empty.run requests).pop?.1 = some (2, 5) := by
  intro requests
  have hplain : ∀ request ∈ requests, request.rebuilds = false := by decide
  have hpop : (empty.run requests).pop?.1 = some (2, 5) := by cbv
  exact ⟨hplain, breaksTies_of_run hplain, hpop⟩

/-- Key 2 is first in line, as key 1 was removed and updated again after the update of key 2. The
entry of the first update of key 1 makes key 1 come out. -/
theorem not_first_of_removed :
    let requests : List (Request Nat Nat) := [.update 1 5, .update 2 5, .remove 1, .update 1 5]
    (∀ request ∈ requests, request.rebuilds = false) ∧
      FirstInLine (updates requests) (empty.run requests).score? 2 5 ∧
      (empty.run requests).pop?.1 = some (1, 5) := by
  intro requests
  have hplain : ∀ request ∈ requests, request.rebuilds = false := by decide
  have hpop : (empty.run requests).pop?.1 = some (1, 5) := by cbv
  have hscores : (empty.run requests).scores =
      ((((∅ : Std.HashMap Nat Nat).insert 1 5).insert 2 5).erase 1).insert 1 5 := rfl
  have hkeys {key score : Nat} (hscore : (empty.run requests).score? key = some score) :
      (key = 1 ∨ key = 2) ∧ score = 5 := by
    rw [score?, hscores] at hscore
    grind
  have hsecond : (empty.run requests).score? 2 = some 5 := by
    rw [score?, hscores]
    grind
  refine ⟨hplain, ⟨⟨hsecond, ?_⟩, ?_⟩, hpop⟩
  · intro other score hscore
    rw [(hkeys hscore).2]
    decide
  · intro rival position position' hne hscore hfirst hrival
    obtain rfl := (hkeys hscore).1.resolve_right hne
    have hposition : position < 2 := by
      obtain ⟨score, hget⟩ := hfirst.exists_score
      rcases position with _ | _ | _ | position
      · decide
      · decide
      · cases hget
      · cases hget
    by_contra hlt
    exact hrival.not_later 2 5 (by omega) rfl

end KeyHeat.LazyHeap

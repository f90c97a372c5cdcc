import KeyHeat.Proofs.Container.KeyCount
import KeyHeat.Proofs.Container.LazyHeap

/-!
# Lazy heaps answer as finite maps

Seen from outside, a lazy heap is a finite map from keys to scores: an update sets a score, a
removal deletes a key, and a key of least score can be looked at or taken out. Entries of the heap
that are stale do not show, so a rebuild makes no difference to any answer. Keys that are taken out
one after the other come by their scores until none is left.
-/

namespace KeyHeat.LazyHeap

variable {κ σ : Type}

/-! ## Requests -/

/-- A request to a lazy heap. -/
inductive Request (κ σ : Type) where
  | update (key : κ) (score : σ)
  | remove (key : κ)
  | peek
  | pop
  | rebuild
  | maybeRebuild (factor : Nat)
  deriving DecidableEq, Repr

/-- What a request is answered. -/
inductive Reply (κ σ : Type) where
  /-- The score that the key had before. -/
  | previous (score? : Option σ)
  /-- A key with its score. -/
  | best (top? : Option (κ × σ))
  | done
  deriving DecidableEq, Repr

/-! ## Maps -/

/-- The map in which `key` has a given score, or is missing. -/
def assign [BEq κ] (map : κ → Option σ) (key : κ) (score? : Option σ) : κ → Option σ :=
  fun other ↦ if key == other then score? else map other

/-- The key is in the map with this score, and no key there has a lower one. -/
structure Least [Ord σ] (map : κ → Option σ) (key : κ) (score : σ) : Prop where
  score_eq : map key = some score
  isLE : ∀ other score', map other = some score' → (compare score score').isLE = true

/-- What a map may answer to a request, and the map that it becomes. -/
inductive Answers [BEq κ] [Ord σ] (map : κ → Option σ) :
    Request κ σ → Reply κ σ → (κ → Option σ) → Prop
  | update (key : κ) (score : σ) :
    Answers map (.update key score) (.previous (map key)) (assign map key (some score))
  | remove (key : κ) : Answers map (.remove key) (.previous (map key)) (assign map key none)
  | peekNone (hempty : ∀ key, map key = none) : Answers map .peek (.best none) map
  | peekLeast (key : κ) (score : σ) (hleast : Least map key score) :
    Answers map .peek (.best (some (key, score))) map
  | popNone (hempty : ∀ key, map key = none) : Answers map .pop (.best none) map
  | popLeast (key : κ) (score : σ) (hleast : Least map key score) :
    Answers map .pop (.best (some (key, score))) (assign map key none)
  | rebuild : Answers map .rebuild .done map
  | maybeRebuild (factor : Nat) : Answers map (.maybeRebuild factor) .done map

/-- Requests to a map with its answers, one after the other, and the map at the end. -/
inductive Dialogue [BEq κ] [Ord σ] :
    (κ → Option σ) → List (Request κ σ × Reply κ σ) → (κ → Option σ) → Prop
  | nil (map : κ → Option σ) : Dialogue map [] map
  | cons {map next last : κ → Option σ} {request : Request κ σ} {reply : Reply κ σ}
    {rest : List (Request κ σ × Reply κ σ)} (hanswers : Answers map request reply next)
    (hrest : Dialogue next rest last) : Dialogue map ((request, reply) :: rest) last

section Runs

variable [BEq κ] [Hashable κ] [Ord σ] [BEq σ]

/-- The answer of a heap to a request, and the heap that it leaves. -/
def serve (heap : LazyHeap κ σ) : Request κ σ → Reply κ σ × LazyHeap κ σ
  | .update key score => (.previous (heap.replace key score).1, (heap.replace key score).2)
  | .remove key => (.previous (heap.remove key).1, (heap.remove key).2)
  | .peek => (.best heap.peek?.1, heap.peek?.2)
  | .pop => (.best heap.pop?.1, heap.pop?.2)
  | .rebuild => (.done, heap.rebuild)
  | .maybeRebuild factor => (.done, heap.maybeRebuild factor)

/-- The heap after some requests, one after the other. -/
def run (heap : LazyHeap κ σ) : List (Request κ σ) → LazyHeap κ σ
  | [] => heap
  | request :: requests => run (heap.serve request).2 requests

/-- The requests with their answers, in order. -/
def transcript (heap : LazyHeap κ σ) : List (Request κ σ) → List (Request κ σ × Reply κ σ)
  | [] => []
  | request :: requests =>
    (request, (heap.serve request).1) :: transcript (heap.serve request).2 requests

/-- The keys with their scores as they are taken out until none is left. -/
def drain (heap : LazyHeap κ σ) : List (κ × σ) :=
  match _hpop : heap.pop?.1 with
  | some best => best :: drain heap.pop?.2
  | none => []
termination_by heap.entryCount
decreasing_by exact entryCount_pop?_lt _hpop

end Runs

/-! ## One request -/

variable [BEq κ] [LawfulBEq κ] [Hashable κ] [Ord σ] {heap : LazyHeap κ σ}

theorem score?_update (heap : LazyHeap κ σ) (key : κ) (score : σ) :
    (heap.update key score).score? = assign heap.score? key (some score) := by
  funext other
  exact Std.HashMap.getElem?_insert

omit [Ord σ] in
theorem score?_of_scores_erase {other : LazyHeap κ σ} {key : κ}
    (hscores : other.scores = heap.scores.erase key) :
    other.score? = assign heap.score? key none := by
  funext other
  rw [score?, hscores]
  exact Std.HashMap.getElem?_erase

omit [Ord σ] in
theorem score?_erase (heap : LazyHeap κ σ) (key : κ) :
    (heap.erase key).score? = assign heap.score? key none :=
  score?_of_scores_erase rfl

omit [LawfulBEq κ] [Ord σ] in
theorem score?_of_scores_eq {other : LazyHeap κ σ} (hscores : other.scores = heap.scores) :
    other.score? = heap.score? := by
  funext key
  rw [score?, hscores, score?]

variable [Std.TransOrd σ] [BEq σ] [LawfulBEq σ]

omit [LawfulBEq κ] in
theorem Valid.least_of_peek? (h : heap.Valid) {key : κ} {score : σ}
    (hpeek : heap.peek?.1 = some (key, score)) : Least heap.score? key score where
  score_eq := score?_of_peek? hpeek
  isLE _ _ hother := h.isLE_of_peek? hpeek hother

theorem Valid.serve (h : heap.Valid) (request : Request κ σ) : (heap.serve request).2.Valid := by
  cases request with
  | update key score => exact h.update key score
  | remove key => exact h.erase key
  | peek => exact h.dropStale
  | pop => exact h.pop?
  | rebuild => exact valid_rebuild heap
  | maybeRebuild factor => exact h.maybeRebuild factor

/-- A heap answers as its scores may, and its scores become what theirs do. -/
theorem Valid.answers (h : heap.Valid) (request : Request κ σ) :
    Answers heap.score? request (heap.serve request).1 (heap.serve request).2.score? := by
  cases request with
  | update key score =>
    rw [LazyHeap.serve, replace_eq, score?_update]
    exact .update key score
  | remove key =>
    rw [LazyHeap.serve, remove_eq, score?_erase]
    exact .remove key
  | peek =>
    have hsame : heap.peek?.2.score? = heap.score? := score?_of_scores_eq (scores_dropStale heap)
    rw [LazyHeap.serve, hsame]
    cases hpeek : heap.peek?.1 with
    | none => exact .peekNone (h.getElem?_of_peek? hpeek)
    | some best => exact .peekLeast best.1 best.2 (h.least_of_peek? hpeek)
  | pop =>
    rw [LazyHeap.serve]
    cases hpop : heap.pop?.1 with
    | none =>
      have hsame : heap.pop?.2.score? = heap.score? := by
        rw [pop?_snd_of_none hpop]
        exact score?_of_scores_eq (scores_dropStale heap)
      rw [hsame]
      rw [pop?_fst] at hpop
      exact .popNone (h.getElem?_of_peek? hpop)
    | some best =>
      rw [score?_of_scores_erase (scores_pop? hpop)]
      rw [pop?_fst] at hpop
      exact .popLeast best.1 best.2 (h.least_of_peek? hpop)
  | rebuild =>
    have hsame : heap.rebuild.score? = heap.score? := score?_of_scores_eq (scores_rebuild heap)
    rw [LazyHeap.serve, hsame]
    exact .rebuild
  | maybeRebuild factor =>
    have hsame : (heap.maybeRebuild factor).score? = heap.score? :=
      score?_of_scores_eq (scores_maybeRebuild heap factor)
    rw [LazyHeap.serve, hsame]
    exact .maybeRebuild factor

theorem Valid.run (h : heap.Valid) (requests : List (Request κ σ)) : (heap.run requests).Valid := by
  induction requests generalizing heap with
  | nil => exact h
  | cons request requests ih => exact ih (h.serve request)

theorem Valid.dialogue (h : heap.Valid) (requests : List (Request κ σ)) :
    Dialogue heap.score? (heap.transcript requests) (heap.run requests).score? := by
  induction requests generalizing heap with
  | nil => exact .nil _
  | cons request requests ih => exact .cons (h.answers request) (ih (h.serve request))

/-! ## Taking out all keys -/

/-- All keys come out with their scores. -/
theorem Valid.mem_drain (h : heap.Valid) {key : κ} {score : σ} :
    (key, score) ∈ heap.drain ↔ heap.score? key = some score := by
  fun_induction drain heap with
  | case1 heap best hpop ih =>
    rw [List.mem_cons, ih h.pop?, score?_of_scores_erase (scores_pop? hpop), assign]
    rw [pop?_fst] at hpop
    have hbest : heap.score? best.1 = some best.2 := score?_of_peek? hpop
    by_cases heq : best.1 = key
    · subst heq
      simp [hbest, Prod.ext_iff, eq_comm]
    · simp [heq, Prod.ext_iff, Ne.symm heq]
  | case2 heap hpop =>
    rw [pop?_fst] at hpop
    have hempty : heap.score? key = none := h.getElem?_of_peek? hpop key
    simp [hempty]

theorem Valid.nodup_drain (h : heap.Valid) : (heap.drain.map (·.1)).Nodup := by
  fun_induction drain heap with
  | case1 heap best hpop ih =>
    rw [List.map_cons, List.nodup_cons]
    refine ⟨?_, ih h.pop?⟩
    intro hmem
    obtain ⟨⟨key, score⟩, hentry, rfl⟩ := List.mem_map.1 hmem
    rw [h.pop?.mem_drain, score?_of_scores_erase (scores_pop? hpop), assign, beq_self_eq_true,
      if_pos rfl] at hentry
    cases hentry
  | case2 heap hpop => exact List.nodup_nil

/-- Keys come out in the order of their scores. -/
theorem Valid.pairwise_drain (h : heap.Valid) :
    heap.drain.Pairwise fun first second ↦ (compare first.2 second.2).isLE = true := by
  fun_induction drain heap with
  | case1 heap best hpop ih =>
    apply List.Pairwise.cons _ (ih h.pop?)
    rintro ⟨key, score⟩ hentry
    rw [h.pop?.mem_drain, score?_of_scores_erase (scores_pop? hpop), assign] at hentry
    rw [pop?_fst] at hpop
    split_ifs at hentry
    exact (h.least_of_peek? hpop).isLE key score hentry
  | case2 heap hpop => exact List.Pairwise.nil

/-! ## The map that a heap stands for -/

omit [Ord σ] [Std.TransOrd σ] [BEq σ] [LawfulBEq σ] in
theorem size_eq_ncard (heap : LazyHeap κ σ) :
    heap.size = {key | (heap.score? key).isSome = true}.ncard := by
  have hkeys : {key | (heap.score? key).isSome = true} = {key | key ∈ heap.scores.keys} := by
    ext key
    change (heap.scores[key]?).isSome = true ↔ key ∈ heap.scores.keys
    rw [Std.HashMap.mem_keys, Std.HashMap.mem_iff_isSome_getElem?]
  rw [hkeys, ncard_setOf_mem Std.HashMap.nodup_keys, Std.HashMap.length_keys, size]

omit [Std.TransOrd σ] [BEq σ] [LawfulBEq σ] in
/-- There are at least as many entries as keys. -/
theorem Valid.size_le_entryCount (h : heap.Valid) : heap.size ≤ heap.entryCount := by
  have hsub : heap.scores.keys ⊆ heap.entries.toList.map (·.key) := by
    intro key hkey
    obtain ⟨score, hscore⟩ := mem_iff_exists_getElem?.1 (Std.HashMap.mem_keys.1 hkey)
    obtain ⟨entry, hentry, rfl, -⟩ := h.hasEntry key score hscore
    exact List.mem_map_of_mem hentry
  calc
    heap.size = heap.scores.keys.length := Std.HashMap.length_keys.symm
    _ ≤ (heap.entries.toList.map (·.key)).length :=
      (Std.HashMap.nodup_keys.subperm hsub).length_le
    _ = heap.entryCount := by rw [List.length_map, heap.entries.length_toList, entryCount]

omit [Std.TransOrd σ] in
theorem Valid.check_eq (h : heap.Valid) : heap.check = .ok () := by
  have hcovered (key : κ) (score : σ) (hmem : (key, score) ∈ heap.toList) :
      ∃ entry ∈ heap.entries.toList, entry.key = key ∧ entry.score = score :=
    h.hasEntry key score (Std.HashMap.mem_toList_iff_getElem?_eq_some.1 hmem)
  rw [check]
  simpa [Nat.not_lt.2 h.size_le_entryCount, pure, Except.pure] using hcovered

/-- What a heap that stands for a map tells of it. -/
structure Tells (map : κ → Option σ) (heap : LazyHeap κ σ) : Prop where
  size_eq : heap.size = {key | (map key).isSome = true}.ncard
  contains_eq : ∀ key, heap.contains key = (map key).isSome
  score?_eq : ∀ key, heap.score? key = map key
  mem_drain : ∀ key score, (key, score) ∈ heap.drain ↔ map key = some score
  nodup_drain : (heap.drain.map (·.1)).Nodup
  pairwise_drain :
    heap.drain.Pairwise fun first second ↦ (compare first.2 second.2).isLE = true
  check_eq : heap.check = .ok ()

theorem Valid.tells (h : heap.Valid) : Tells heap.score? heap where
  size_eq := heap.size_eq_ncard
  contains_eq _ := Std.HashMap.contains_eq_isSome_getElem?
  score?_eq _ := rfl
  mem_drain _ _ := h.mem_drain
  nodup_drain := h.nodup_drain
  pairwise_drain := h.pairwise_drain
  check_eq := h.check_eq

/-- Whatever is requested of an empty heap, its answers are those of a map that starts out empty,
and in the end it tells of that map. -/
theorem answers_as_map (requests : List (Request κ σ)) :
    ∃ map : κ → Option σ, Dialogue (fun _ ↦ none) (empty.transcript requests) map ∧
      Tells map (empty.run requests) := by
  have hempty : (empty : LazyHeap κ σ).score? = fun _ ↦ none := by
    funext key
    exact Std.HashMap.getElem?_empty
  have hvalid := (valid_empty : (empty : LazyHeap κ σ).Valid)
  refine ⟨(empty.run requests).score?, ?_, (hvalid.run requests).tells⟩
  rw [← hempty]
  exact hvalid.dialogue requests

/-- The entry that the first update of key 1 left behind is passed over. -/
theorem answers_as_map_overwritten :
    let requests : List (Request Nat Nat) := [.update 1 2, .update 2 3, .update 1 4, .pop]
    (∃ map : Nat → Option Nat, Dialogue (fun _ ↦ none) (empty.transcript requests) map ∧
      Tells map (empty.run requests)) ∧
      (empty.transcript requests).getLast? = some (.pop, .best (some (2, 3))) := by
  intro requests
  have hlast : (empty.transcript requests).getLast? = some (.pop, .best (some (2, 3))) := by cbv
  exact ⟨answers_as_map requests, hlast⟩

end KeyHeat.LazyHeap

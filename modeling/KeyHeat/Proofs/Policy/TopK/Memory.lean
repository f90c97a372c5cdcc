import KeyHeat.Proofs.Policy.TopK.Leaders

/-!
# The heap of the top-`k` policy stays small

The heap has at most four entries for each member, stale ones included. Only a member that is
accessed again triggers a rebuild: other keys may make entries go from the top up to the first
live one, but none behind it. A key that finds a free place adds one entry and raises the bound by
four, and a key that takes the place of a member removes an entry before it adds one.
-/

namespace KeyHeat.TopK

variable {κ : Type} [BEq κ] [Hashable κ]

/-- The heap has few entries for its number of members, none if there is no member. -/
def Compact (members : LazyHeap κ Nat) : Prop :=
  members.entryCount ≤ rebuildFactor * members.size

theorem compact_empty : Compact (.empty : LazyHeap κ Nat) := Nat.zero_le _

variable [LawfulBEq κ] {members after : LazyHeap κ Nat} {k threshold count : Nat} {key : κ}

/-- A rebuild keeps or restores the bound as soon as there is a member. -/
theorem compact_maybeRebuild (hpos : 1 ≤ members.size) :
    Compact (members.maybeRebuild rebuildFactor) := by
  have hle := members.entryCount_maybeRebuild_le rebuildFactor
  have hfactor : max rebuildFactor 1 = rebuildFactor := by decide
  rw [hfactor, Nat.max_eq_left hpos, Nat.mul_comm] at hle
  rw [Compact, LazyHeap.size, LazyHeap.scores_maybeRebuild]
  exact hle

theorem Competed.compact (h : Competed members k threshold key count after)
    (hcompact : Compact members) : Compact after := by
  have hsize := h.size_le
  cases h with
  | low hlow => exact hcompact
  | renewed hhigh hmember =>
    apply compact_maybeRebuild
    calc
      1 ≤ members.size := size_pos_of_mem hmember
      _ ≤ (members.update key count).size := Std.HashMap.size_le_size_insert
  | entered hhigh hnew hroom =>
    have hgrown : (members.update key count).size = members.size + 1 := by
      rw [LazyHeap.size, LazyHeap.scores_update, Std.HashMap.size_insert,
        if_neg (not_mem_of_getElem? hnew)]
      rfl
    calc
      (members.update key count).entryCount = members.entryCount + 1 :=
        members.entryCount_update key count
      _ ≤ rebuildFactor * members.size + rebuildFactor := Nat.add_le_add hcompact (by decide)
      _ = rebuildFactor * (members.update key count).size := by rw [hgrown, Nat.mul_succ]
  | beaten hhigh hnew hfull hbeaten =>
    calc
      members.peek?.2.entryCount ≤ members.entryCount := members.entryCount_dropStale_le
      _ ≤ rebuildFactor * members.size := hcompact
      _ ≤ rebuildFactor * members.peek?.2.size := Nat.mul_le_mul_left _ hsize
  | ousted victim lowest hhigh hnew hfull hpeek hhigher =>
    -- The member with the lowest count goes together with its entry.
    have hlt : members.peek?.2.pop?.2.entryCount < members.entryCount := by
      rw [← LazyHeap.pop?_fst] at hpeek
      rw [LazyHeap.pop?_peek?]
      exact LazyHeap.entryCount_pop?_lt hpeek
    calc
      (members.peek?.2.pop?.2.update key count).entryCount =
          members.peek?.2.pop?.2.entryCount + 1 := LazyHeap.entryCount_update _ _ _
      _ ≤ members.entryCount := hlt
      _ ≤ rebuildFactor * members.size := hcompact
      _ ≤ rebuildFactor * (members.peek?.2.pop?.2.update key count).size :=
        Nat.mul_le_mul_left _ hsize

theorem compact_run {topK : TopK κ} (h : Compact topK.members) (calls : List (Call κ)) :
    Compact (serve.run topK calls).members := by
  apply serve.run_invariant (P := fun state ↦ Compact state.members) _ h
  intro state call hstate
  rw [serve, TopK.access]
  split_ifs
  · exact hstate
  · exact (state.competed_record call.key).compact hstate

omit [LawfulBEq κ] in
/-- Only a member that is accessed makes an entry go that is behind a live one. -/
theorem Competed.mem_of_behind (h : Competed members k threshold key count after)
    (hvalid : members.Valid) (hnew : key ∉ members.scores) {entry : HeapEntry κ Nat}
    (hbehind : members.Behind entry) : entry ∈ after.entries.toList := by
  cases h with
  | low hlow => exact hbehind.1
  | renewed hhigh hmember => exact absurd hmember hnew
  | entered hhigh hnew hroom =>
    exact (MinHeap.perm_insert _ _ _).mem_iff.2 (List.mem_cons_of_mem _ hbehind.1)
  | beaten hhigh hnew hfull hbeaten => exact (hvalid.behind_dropStale hbehind).1
  | ousted victim lowest hhigh hnew hfull hpeek hhigher =>
    have hpop : entry ∈ members.peek?.2.pop?.2.entries.toList := by
      rw [LazyHeap.pop?_peek?]
      exact hvalid.mem_pop?_of_behind hbehind
    exact (MinHeap.perm_insert _ _ _).mem_iff.2 (List.mem_cons_of_mem _ hpop)

/-- After any run the heap has at most four entries for each member, and at most `4 * k`, although
an access to a key that is no member makes no entry go that is behind a live one. -/
theorem entryCount_le_of_run (k threshold : Nat) (calls : List (Call κ)) :
    let topK := serve.run (empty k threshold) calls
    topK.members.entryCount ≤ 4 * max topK.size 1 ∧
      (1 ≤ k → topK.members.entryCount ≤ 4 * k) ∧
      ∀ call, topK.isHot call.key = false → ∀ entry, topK.members.Behind entry →
        entry ∈ (serve topK call).2.members.entries.toList := by
  intro topK
  have hleading : topK.Leading := (leading_empty k threshold).run calls
  have hcompact : topK.members.entryCount ≤ 4 * topK.size := compact_run compact_empty calls
  have hk : topK.k = k := k_run _ calls
  refine ⟨?_, ?_, ?_⟩
  · calc
      topK.members.entryCount ≤ 4 * topK.size := hcompact
      _ ≤ 4 * max topK.size 1 := Nat.mul_le_mul_left 4 (Nat.le_max_left _ _)
  · intro _
    calc
      topK.members.entryCount ≤ 4 * topK.size := hcompact
      _ ≤ 4 * k := Nat.mul_le_mul_left 4 (hleading.valid.size_le.trans_eq hk)
  · intro call hcold entry hbehind
    have hnew : call.key ∉ topK.members.scores := by
      rw [← Std.HashMap.contains_iff_mem, Bool.not_eq_true]
      exact hcold
    rw [serve, TopK.access]
    split_ifs
    · exact hbehind.1
    · exact (topK.competed_record call.key).mem_of_behind hleading.heap hnew hbehind

theorem members_of_four :
    (serve.run (empty (κ := UInt64) 2 1) [.put 1, .put 2, .get 2, .get 2]).members =
      (((LazyHeap.empty.update 1 1).update 2 1).update 2 2).update 2 3 := by
  have hscores : (LazyHeap.empty : LazyHeap UInt64 Nat).scores = ∅ := rfl
  have hcount : (LazyHeap.empty : LazyHeap UInt64 Nat).entryCount = 0 := rfl
  simp [serve, Service.run, access, record, rank, empty, Call.key, LazyHeap.contains,
    LazyHeap.size, LazyHeap.maybeRebuild, LazyHeap.entryCount_update, Std.HashMap.getD_insert,
    Std.HashMap.size_insert, rebuildFactor, hscores, hcount]

/-- The second and third of four accesses to two members leave stale entries behind the live one of
key 1. Key 3 is turned away then, and the entries stay. -/
theorem entryCount_le_of_run_four :
    let topK := serve.run (empty (κ := UInt64) 2 1) [.put 1, .put 2, .get 2, .get 2]
    1 ≤ 2 ∧ topK.members.entryCount ≤ 4 * max topK.size 1 ∧ topK.members.entryCount ≤ 4 * 2 ∧
      topK.isHot 3 = false ∧ topK.members.Behind ⟨2, 2, 2⟩ ∧
      ⟨2, 2, 2⟩ ∈ (serve topK (.get 3)).2.members.entries.toList := by
  intro topK
  have hpos : 1 ≤ 2 := by decide
  have hcold : topK.isHot 3 = false := by
    rw [isHot, members_of_four]
    cbv
  have hbehind : topK.members.Behind ⟨2, 2, 2⟩ := by
    have hentries : topK.members.entries.toList =
        [⟨1, 0, 1⟩, ⟨1, 1, 2⟩, ⟨2, 2, 2⟩, ⟨3, 3, 2⟩] := by
      rw [members_of_four]
      cbv
    have hlive : topK.members.isLive ⟨1, 0, 1⟩ = true := by
      rw [members_of_four]
      cbv
    rw [LazyHeap.Behind, hentries]
    exact ⟨by simp, ⟨1, 0, 1⟩, by simp, hlive, rfl⟩
  obtain ⟨hmembers, hplaces, hstale⟩ :=
    entryCount_le_of_run (κ := UInt64) 2 1 [.put 1, .put 2, .get 2, .get 2]
  exact ⟨hpos, hmembers, hplaces hpos, hcold, hbehind, hstale (.get 3) hcold _ hbehind⟩

end KeyHeat.TopK

import KeyHeat.Proofs.Sketch.Bloom

/-!
# What a Bloom filter remembers

The requests to a filter and its answers tell which keys were added since it was last cleared:
those that were inserted and those that were not let through. The set bits of the filter are the
bits of these keys. So it answers yes for each of them, as long as it is not cleared, and for
another key only if its bits are all among theirs; and neither the order in which they were added
nor the number of times matters.
-/

namespace KeyHeat.Bloom

/-- A request to a filter. -/
inductive Request (κ : Type) where
  | insert (key : κ)
  | allow (key : κ)
  | contains (key : κ)
  | clear
  deriving DecidableEq, Repr

variable {κ : Type}

/-- The keys added since the last clearing, the latest first, once a request has got its answer. -/
def Request.note (added : List κ) : Request κ × Option Bool → List κ
  | (insert key, _) => key :: added
  | (allow key, some false) => key :: added
  | (allow _, _) => added
  | (contains _, _) => added
  | (clear, _) => []

theorem Request.mem_note {added : List κ} {request : Request κ} (hkept : request ≠ clear)
    (answer : Option Bool) {key : κ} (hkey : key ∈ added) : key ∈ note added (request, answer) := by
  cases request with
  | insert => exact List.mem_cons_of_mem _ hkey
  | allow =>
    match answer with
    | some false => exact List.mem_cons_of_mem _ hkey
    | some true | none => exact hkey
  | contains => exact hkey
  | clear => exact absurd rfl hkept

/-- The keys added since the last clearing. -/
def added (transcript : List (Request κ × Option Bool)) : List κ :=
  transcript.foldl Request.note []

variable [HashMaterial κ] {start filter : Bloom} {seen : List κ}

/-! ## Requests -/

/-- The answer to a request, if it gets one, and the filter after it. -/
def serve (filter : Bloom) : Request κ → Option Bool × Bloom
  | .insert key => (none, filter.insert key)
  | .allow key => (some (filter.allow key).1, (filter.allow key).2)
  | .contains key => (some (filter.contains key), filter)
  | .clear => (none, filter.clear)

/-- The filter after some requests, one after the other. -/
def run (filter : Bloom) : List (Request κ) → Bloom
  | [] => filter
  | request :: requests => run (filter.serve request).2 requests

/-- The requests with their answers, in order. -/
def transcript (filter : Bloom) : List (Request κ) → List (Request κ × Option Bool)
  | [] => []
  | request :: requests =>
    (request, (filter.serve request).1) :: transcript (filter.serve request).2 requests

theorem run_append (filter : Bloom) (first second : List (Request κ)) :
    filter.run (first ++ second) = (filter.run first).run second := by
  induction first generalizing filter with
  | nil => rfl
  | cons request requests ih => exact ih _

/-! ## The set of bits -/

/-- The set bits are those of some keys that were added to a filter without any. -/
structure Holds (start : Bloom) (seen : List κ) (filter : Bloom) : Prop where
  valid : filter.Valid
  bitCount_eq : filter.bitCount = start.bitCount
  hashCount_eq : filter.hashCount = start.hashCount
  size_eq : filter.words.size = start.words.size
  testBit_iff : ∀ bit, testBit filter.words bit = true ↔ ∃ key ∈ seen, bit ∈ start.bits key

theorem Holds.bits_eq (h : Holds start seen filter) (key : κ) :
    filter.bits key = start.bits key := by
  unfold bits
  rw [h.bitCount_eq, h.hashCount_eq]

theorem Holds.contains_iff (h : Holds start seen filter) {key : κ} : filter.contains key = true ↔
    ∀ bit ∈ start.bits key, ∃ other ∈ seen, bit ∈ start.bits other := by
  rw [Bloom.contains_iff, h.bits_eq]
  simp only [h.testBit_iff]

theorem Holds.insert (h : Holds start seen filter) (key : κ) :
    Holds start (key :: seen) (filter.insert key) := by
  have hsize : (filter.insert key).words.size = filter.words.size := size_foldl_setBit _ _
  refine ⟨⟨h.valid.bitCount_pos, ?_⟩, h.bitCount_eq, h.hashCount_eq, hsize.trans h.size_eq, ?_⟩
  · rw [hsize]
    exact h.valid.bitCount_le
  · intro bit
    rw [h.valid.testBit_insert, h.testBit_iff, h.bits_eq]
    simp only [List.mem_cons, exists_eq_or_imp]

theorem Holds.allow (h : Holds start seen filter) (key : κ) :
    Holds start (Request.note seen (.allow key, some (filter.allow key).1))
      (filter.allow key).2 := by
  unfold Bloom.allow
  split_ifs
  · exact h
  · exact h.insert key

theorem Holds.clear (h : Holds start seen filter) : Holds start ([] : List κ) filter.clear := by
  have hsize : filter.clear.words.size = filter.words.size := Array.size_replicate
  refine ⟨⟨h.valid.bitCount_pos, ?_⟩, h.bitCount_eq, h.hashCount_eq, hsize.trans h.size_eq, ?_⟩
  · rw [hsize]
    exact h.valid.bitCount_le
  · intro bit
    simp [Bloom.clear, testBit_replicate]

theorem Holds.serve (h : Holds start seen filter) (request : Request κ) :
    Holds start (Request.note seen (request, (filter.serve request).1))
      (filter.serve request).2 := by
  cases request with
  | insert key => exact h.insert key
  | allow key => exact h.allow key
  | contains key => exact h
  | clear => exact h.clear

theorem Holds.run (h : Holds start seen filter) (requests : List (Request κ)) :
    Holds start ((filter.transcript requests).foldl Request.note seen) (filter.run requests) := by
  induction requests generalizing filter seen with
  | nil => exact h
  | cons request requests ih => exact ih (h.serve request)

theorem holds_empty (expected : Nat) (rate : Float) :
    Holds (empty expected rate) ([] : List κ) (empty expected rate) where
  valid := valid_empty expected rate
  bitCount_eq := rfl
  hashCount_eq := rfl
  size_eq := rfl
  testBit_iff bit := by simp [empty, testBit_replicate]

/-- The keys decide which bits are set, and these decide the filter. -/
theorem Holds.unique {others : List κ} {other : Bloom} (h : Holds start seen filter)
    (hother : Holds start others other) (hkeys : ∀ key, key ∈ others ↔ key ∈ seen) :
    other = filter := by
  have hwords : other.words = filter.words := by
    apply eq_of_testBit_eq (hother.size_eq.trans h.size_eq.symm)
    intro bit
    rw [Bool.eq_iff_iff, hother.testBit_iff, h.testBit_iff]
    simp only [hkeys]
  have hbits : other.bitCount = filter.bitCount := hother.bitCount_eq.trans h.bitCount_eq.symm
  have hhashes : other.hashCount = filter.hashCount := hother.hashCount_eq.trans h.hashCount_eq.symm
  calc
    other = ⟨other.bitCount, other.hashCount, other.words⟩ := rfl
    _ = filter := by rw [hbits, hhashes, hwords]

/-! ## Answers -/

/-- A key for which the filter answers yes keeps that answer until the filter is cleared. -/
theorem Holds.contains_run (h : Holds start seen filter) {key : κ}
    (hcontains : filter.contains key = true) {requests : List (Request κ)}
    (hkept : .clear ∉ requests) : (filter.run requests).contains key = true := by
  induction requests generalizing filter seen with
  | nil => exact hcontains
  | cons request requests ih =>
    rw [List.mem_cons, not_or] at hkept
    have hnext := h.serve request
    refine ih hnext ?_ hkept.2
    rw [hnext.contains_iff]
    intro bit hbit
    obtain ⟨other, hother, hmem⟩ := h.contains_iff.1 hcontains bit hbit
    exact ⟨other, Request.mem_note (Ne.symm hkept.1) _ hother, hmem⟩

theorem Holds.contains_insert (h : Holds start seen filter) (key : κ) :
    (filter.insert key).contains key = true := by
  rw [(h.insert key).contains_iff]
  intro bit hbit
  exact ⟨key, List.mem_cons_self, hbit⟩

theorem Holds.contains_allow (h : Holds start seen filter) (key : κ) :
    (filter.allow key).2.contains key = true := by
  unfold Bloom.allow
  split_ifs with hcontains
  · exact hcontains
  · exact h.contains_insert key

theorem allow_fst (filter : Bloom) (key : κ) : (filter.allow key).1 = filter.contains key := by
  unfold allow
  split_ifs with hcontains
  · exact hcontains.symm
  · exact (eq_false_of_ne_true hcontains).symm

/-- What a filter without keys remembers after some requests. -/
structure Remembers (start : Bloom) (requests : List (Request κ)) : Prop where
  word_lt : ∀ key : κ, ∀ bit ∈ (start.run requests).bits key,
    (locate bit).1 < (start.run requests).words.size
  bits_eq : ∀ key : κ, (start.run requests).bits key = start.bits key
  contains_iff : ∀ key : κ, (start.run requests).contains key = true ↔
    ∀ bit ∈ start.bits key, ∃ other ∈ added (start.transcript requests), bit ∈ start.bits other
  contains_insert : ∀ (key : κ) (later : List (Request κ)), .clear ∉ later →
    (start.run (requests ++ .insert key :: later)).contains key = true
  contains_allow : ∀ (key : κ) (later : List (Request κ)), .clear ∉ later →
    (start.run (requests ++ .allow key :: later)).contains key = true
  allow_eq : ∀ key : κ, ((start.run requests).allow key).1 = (start.run requests).contains key
  run_eq : ∀ others : List (Request κ),
    (∀ key, key ∈ added (start.transcript others) ↔ key ∈ added (start.transcript requests)) →
    start.run others = start.run requests

/-- A new filter of any size remembers the set of the keys that were added to it. -/
theorem remembers_of_run (expected : Nat) (rate : Float) (requests : List (Request κ)) :
    Remembers (empty expected rate) requests := by
  have hholds := (holds_empty expected rate).run requests
  refine {
    word_lt := fun key bit hbit ↦ hholds.valid.word_lt hbit
    bits_eq := hholds.bits_eq
    contains_iff := fun key ↦ hholds.contains_iff
    contains_insert := ?_
    contains_allow := ?_
    allow_eq := fun key ↦ allow_fst _ key
    run_eq := fun others hkeys ↦ hholds.unique ((holds_empty expected rate).run others) hkeys }
  · intro key later hkept
    rw [run_append]
    exact (hholds.insert key).contains_run (hholds.contains_insert key) hkept
  · intro key later hkept
    rw [run_append]
    exact (hholds.allow key).contains_run (hholds.contains_allow key) hkept

theorem remembers_of_run_repeated :
    let requests : List (Request UInt64) := [.insert 1, .insert 2, .insert 1]
    Remembers (empty 100 0.01) requests ∧
      (empty 100 0.01).run [.clear, .insert (2 : UInt64), .insert 1] =
        (empty 100 0.01).run requests := by
  intro requests
  have hremembers := remembers_of_run 100 0.01 requests
  refine ⟨hremembers, hremembers.run_eq _ ?_⟩
  intro key
  change key ∈ [1, 2] ↔ key ∈ [1, 2, 1]
  simp [or_comm]

end KeyHeat.Bloom

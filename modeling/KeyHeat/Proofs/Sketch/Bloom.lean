import KeyHeat.Proofs.Sketch.Word
import KeyHeat.Sketch.Bloom

/-!
# The bits of a Bloom filter are a set

The words of a filter are read as the set of the bits that are set in them, and they are determined
by it. Adding a key adds its bits to the set, which are all within the words, so a filter that is
built from nothing by adding keys has just their bits.
-/

namespace KeyHeat.Bloom

/-! ## One bit of a word -/

theorem testBit_eq (words : Array UInt64) (bit : Nat) :
    testBit words bit = (words.getD (bit / 64) 0).toNat.testBit (bit % 64) := by
  have hmask : testBit words bit =
      (words.getD (bit / 64) 0 &&& (1 <<< UInt64.ofNat (bit % 64)) != 0) := rfl
  rw [hmask, Bool.eq_iff_iff, bne_iff_ne, ne_eq, ← UInt64.toNat_inj, UInt64.toNat_and,
    Word.toNat_one_shiftLeft (Nat.mod_lt _ (by decide)), Nat.and_two_pow, UInt64.toNat_zero]
  cases Nat.testBit _ _ <;> simp

theorem size_setBit (words : Array UInt64) (bit : Nat) : (setBit words bit).size = words.size :=
  Array.size_modify

/-- Setting a bit that is within the words sets it and no other. -/
theorem testBit_setBit {words : Array UInt64} {bit : Nat} (hbit : bit / 64 < words.size)
    (other : Nat) :
    testBit (setBit words bit) other = true ↔ other = bit ∨ testBit words other = true := by
  have hset : setBit words bit =
      words.modify (bit / 64) (· ||| (1 <<< UInt64.ofNat (bit % 64))) := rfl
  rw [testBit_eq, testBit_eq, hset, Array.getD_eq_getD_getElem?, Array.getD_eq_getD_getElem?,
    Array.getElem?_modify]
  split_ifs with hword
  · rw [← hword, Array.getElem?_eq_getElem hbit, Option.map_some, Option.getD_some,
      Option.getD_some, UInt64.toNat_or, Word.toNat_one_shiftLeft (Nat.mod_lt _ (by decide)),
      Nat.testBit_or, Nat.testBit_two_pow, Bool.or_eq_true, decide_eq_true_iff]
    have hplace : bit % 64 = other % 64 ↔ other = bit := by omega
    rw [hplace, or_comm]
  · have hne : other ≠ bit := fun heq ↦ hword (by rw [heq])
    rw [or_iff_right hne]

/-- The set bits determine the words. -/
theorem eq_of_testBit_eq {words others : Array UInt64} (hsize : words.size = others.size)
    (h : ∀ bit, testBit words bit = testBit others bit) : words = others := by
  apply Array.ext hsize
  intro index hword hother
  apply Word.eq_of_testBit_eq
  intro bit hbit
  have hsame := h (64 * index + bit)
  have hdiv : (64 * index + bit) / 64 = index := by omega
  have hmod : (64 * index + bit) % 64 = bit := by omega
  rwa [testBit_eq, testBit_eq, hdiv, hmod, Array.getD_eq_getD_getElem?,
    Array.getD_eq_getD_getElem?, Array.getElem?_eq_getElem hword,
    Array.getElem?_eq_getElem hother] at hsame

theorem testBit_replicate (size bit : Nat) : testBit (Array.replicate size 0) bit = false := by
  rw [testBit_eq, Array.getD_eq_getD_getElem?, Array.getElem?_replicate]
  split_ifs <;> simp

/-! ## Bits of keys -/

theorem lt_of_mem_bitsFrom {bitCount count bit : Nat} {step hash : UInt64} (hpos : 0 < bitCount)
    (hbit : bit ∈ bitsFrom bitCount step hash count) : bit < bitCount := by
  induction count generalizing hash with
  | zero => cases hbit
  | succ count ih =>
    rcases List.mem_cons.1 hbit with rfl | hbit
    · exact Nat.mod_lt _ hpos
    · exact ih hbit

/-- Setting bits that are within the words adds them to the set. -/
theorem testBit_foldl_setBit {bits : List Nat} {words : Array UInt64}
    (hbits : ∀ bit ∈ bits, bit / 64 < words.size) (other : Nat) :
    testBit (bits.foldl setBit words) other = true ↔ other ∈ bits ∨ testBit words other = true := by
  induction bits generalizing words with
  | nil => simp
  | cons bit bits ih =>
    obtain ⟨hbit, hrest⟩ := List.forall_mem_cons.1 hbits
    rw [← size_setBit words bit] at hrest
    rw [List.foldl_cons, ih hrest, testBit_setBit hbit, List.mem_cons, or_left_comm, or_assoc]

theorem size_foldl_setBit (bits : List Nat) (words : Array UInt64) :
    (bits.foldl setBit words).size = words.size := by
  induction bits generalizing words with
  | nil => rfl
  | cons bit bits ih => rw [List.foldl_cons, ih, size_setBit]

/-- A filter with words for all of its bits. -/
structure Valid (filter : Bloom) : Prop where
  bitCount_pos : 0 < filter.bitCount
  bitCount_le : filter.bitCount ≤ 64 * filter.words.size

variable {κ : Type} [HashMaterial κ] {filter : Bloom} {key : κ}

/-- All bits of a key are within the words. -/
theorem Valid.word_lt (h : filter.Valid) {bit : Nat} (hbit : bit ∈ filter.bits key) :
    (locate bit).1 < filter.words.size := by
  have hlt : bit < filter.bitCount := lt_of_mem_bitsFrom h.bitCount_pos hbit
  have hle := h.bitCount_le
  change bit / 64 < filter.words.size
  omega

theorem contains_iff : filter.contains key = true ↔
    ∀ bit ∈ filter.bits key, testBit filter.words bit = true := List.all_eq_true

theorem words_insert (filter : Bloom) (key : κ) :
    (filter.insert key).words = (filter.bits key).foldl setBit filter.words := rfl

/-- The bits that are set once a key is added are its bits and those that had been set. -/
theorem Valid.testBit_insert (h : filter.Valid) (key : κ) (bit : Nat) :
    testBit (filter.insert key).words bit = true ↔
      bit ∈ filter.bits key ∨ testBit filter.words bit = true := by
  rw [words_insert]
  exact testBit_foldl_setBit (fun bit hbit ↦ h.word_lt hbit) bit

theorem valid_empty (expected : Nat) (rate : Float) : (empty expected rate).Valid where
  bitCount_pos := Nat.lt_of_lt_of_le (by decide) (Nat.le_max_right _ 64)
  bitCount_le := by
    have hsize : (empty expected rate).words.size = ((empty expected rate).bitCount + 63) / 64 :=
      Array.size_replicate
    rw [hsize]
    omega

end KeyHeat.Bloom

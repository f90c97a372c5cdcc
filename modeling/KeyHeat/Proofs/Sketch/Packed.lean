import KeyHeat.Proofs.Sketch.Table
import KeyHeat.Proofs.Sketch.Word
import KeyHeat.Sketch.Packed

/-!
# Packed words hold separate counters

A word is sixteen counters, its digits in base sixteen. Raising a counter that is below fifteen
does not carry into the next one, and the mask clears exactly the bits that cross from a counter
into the one below it when a word is shifted to be halved. So an operation on words is one on
counters, and a packed sketch is a table of counters in four rows.
-/

namespace KeyHeat.PackedSketch

/-! ## The counters of a word -/

/-- A counter of a word: its digit in base sixteen at the given place. -/
def digit (word : UInt64) (place : Nat) : Nat := word.toNat / 16 ^ place % 16

/-- The number of bits below a counter. -/
def shiftOf (place : Nat) : UInt64 := UInt64.ofNat (place * 4)

theorem sixteen_pow (place : Nat) : 16 ^ place = 2 ^ (place * 4) := by
  rw [Nat.mul_comm, Nat.pow_mul]

theorem shiftOf_lt {place : Nat} (hplace : place < 16) : shiftOf place < 64 := by
  rw [UInt64.lt_iff_toNat_lt, shiftOf, UInt64.toNat_ofNat']
  change place * 4 % 2 ^ 64 < 64
  omega

theorem toNat_counterIn {place : Nat} (hplace : place < 16) (word : UInt64) :
    (counterIn word (shiftOf place)).toNat = digit word place := by
  rw [counterIn, UInt64.toNat_and, shiftOf, Word.toNat_shiftRight word (by omega), ← sixteen_pow]
  exact Nat.and_two_pow_sub_one_eq_mod _ 4

theorem digit_zero (place : Nat) : digit 0 place = 0 := by
  rw [digit, UInt64.toNat_zero, Nat.zero_div]

/-! ## Raising a counter -/

/-- Without a carry, the digits above the one that is raised stay as they are. -/
theorem add_pow_div {n place other : Nat} (hdigit : n / 16 ^ place % 16 < 15)
    (hlt : place < other) : (n + 16 ^ place) / 16 ^ other = n / 16 ^ other := by
  obtain ⟨gap, rfl⟩ := Nat.exists_eq_add_of_le hlt
  have hnext : (n / 16 ^ place + 1) / 16 = n / 16 ^ place / 16 := by omega
  rw [Nat.pow_add, Nat.pow_succ]
  simp only [← Nat.div_div_eq_div_mul]
  rw [Nat.add_div_right _ (Nat.pow_pos (by decide)), hnext]

theorem add_pow_div_mod {n place : Nat} (hdigit : n / 16 ^ place % 16 < 15) (other : Nat) :
    (n + 16 ^ place) / 16 ^ other % 16 =
      if place = other then n / 16 ^ place % 16 + 1 else n / 16 ^ other % 16 := by
  rcases Nat.lt_trichotomy place other with hlt | rfl | hgt
  · rw [add_pow_div hdigit hlt, if_neg hlt.ne]
  · rw [if_pos rfl, Nat.add_div_right _ (Nat.pow_pos (by decide))]
    omega
  · obtain ⟨gap, rfl⟩ := Nat.exists_eq_add_of_le hgt
    rw [if_neg hgt.ne', Nat.pow_add, Nat.pow_succ, Nat.mul_assoc,
      Nat.add_mul_div_left _ _ (Nat.pow_pos (by decide)), Nat.add_mul_mod_self_left]

/-- A counter below fifteen leaves room in the word. -/
theorem toNat_add_pow {word : UInt64} {place : Nat} (hplace : place < 16)
    (hdigit : digit word place < 15) :
    (word + (1 <<< shiftOf place)).toNat = word.toNat + 16 ^ place := by
  have hbit : ((1 : UInt64) <<< shiftOf place).toNat = 16 ^ place := by
    rw [shiftOf, Word.toNat_one_shiftLeft (by omega), ← sixteen_pow]
  have hroom : (word.toNat + 16 ^ place) / 16 ^ 16 = 0 := by
    rw [add_pow_div hdigit hplace]
    exact Nat.div_eq_of_lt word.toNat_lt
  rw [UInt64.toNat_add, hbit]
  exact Nat.mod_eq_of_lt (by omega)

/-- Raising a counter changes no other. -/
theorem digit_raise {place other : Nat} (hplace : place < 16) (word : UInt64) :
    digit (raise word (shiftOf place)) other =
      if place = other then min (digit word place + 1) 15 else digit word other := by
  have hroom : counterIn word (shiftOf place) < counterMax ↔ digit word place < 15 := by
    rw [UInt64.lt_iff_toNat_lt, toNat_counterIn hplace]
    rfl
  have hraise : raise word (shiftOf place) =
      if digit word place < 15 then word + (1 <<< shiftOf place) else word := if_congr hroom rfl rfl
  have hle : digit word place < 16 := Nat.mod_lt _ (by decide)
  rw [hraise]
  split_ifs with hbelow heq heq
  · rw [digit, toNat_add_pow hplace hbelow, add_pow_div_mod hbelow, if_pos heq]
    change digit word place + 1 = _
    omega
  · rw [digit, toNat_add_pow hplace hbelow, add_pow_div_mod hbelow, if_neg heq]
    rfl
  · rw [← heq]
    omega
  · rfl

/-! ## Halving -/

theorem testBit_digit (word : UInt64) (place bit : Nat) :
    (digit word place).testBit bit =
      (decide (bit < 4) && word.toNat.testBit (place * 4 + bit)) := by
  rw [digit, sixteen_pow, show (16 : Nat) = 2 ^ 4 from rfl, Nat.testBit_mod_two_pow,
    Nat.testBit_div_two_pow, Nat.add_comm]

/-- The mask keeps all bits of a word but the highest of each counter. -/
theorem testBit_halveMask : ∀ place < 16, ∀ bit < 4,
    halveMask.toNat.testBit (place * 4 + bit) = decide (bit + 1 < 4) := by
  decide

/-- No bit of a counter reaches another one. -/
theorem digit_halveWord {place : Nat} (hplace : place < 16) (word : UInt64) :
    digit (halveWord word) place = digit word place / 2 := by
  apply Nat.eq_of_testBit_eq
  intro bit
  rw [testBit_digit, Nat.testBit_div_two, testBit_digit, halveWord, UInt64.toNat_and,
    Nat.testBit_and, UInt64.toNat_shiftRight, Nat.testBit_shiftRight]
  by_cases hbit : bit < 4
  · rw [testBit_halveMask place hplace bit hbit, Bool.and_comm (Nat.testBit _ _)]
    have hnext : 1 + (place * 4 + bit) = place * 4 + (bit + 1) := by omega
    simp [hbit, hnext]
  · simp [hbit, show ¬bit + 1 < 4 by omega]

/-! ## The table of counters -/

variable {κ : Type} [HashMaterial κ] {sketch : PackedSketch}

/-- The counter of a row and a column, if the table has one. -/
def counter? (sketch : PackedSketch) (row col : Nat) : Option Nat :=
  sketch.words[row * sketch.wordsPerRow + col / 16]?.map (digit · (col % 16))

theorem column_lt (hpos : 0 < sketch.width) (seed : UInt64) (key : κ) :
    sketch.column seed key < sketch.width := Nat.mod_lt _ hpos

/-- The word of a column is one of the words of its row. -/
theorem div_lt_wordsPerRow {col : Nat} (hcol : col < sketch.width) :
    col / 16 < sketch.wordsPerRow := by
  rw [wordsPerRow, countersPerWord]
  omega

theorem locate_eq (sketch : PackedSketch) (row col : Nat) : sketch.locate row col =
    ⟨row * sketch.wordsPerRow + col / 16, shiftOf (col % 16)⟩ := rfl

theorem map_word_positions (sketch : PackedSketch) (key : κ) :
    (sketch.positions key).map Position.word =
      Table.places sketch.wordsPerRow (sketch.column · key / 16) sketch.seeds := by
  rw [positions, List.map_map]
  rfl

theorem mem_positions {row : Nat} {seed : UInt64} (hseed : sketch.seeds[row]? = some seed)
    (key : κ) : sketch.locate row (sketch.column seed key) ∈ sketch.positions key :=
  List.mem_map.2 ⟨(seed, row), List.mem_zipIdx_iff_getElem?.2 hseed, rfl⟩

/-- The counters of a key are counters of the table. -/
theorem position_lt (hpos : 0 < sketch.width) {key : κ} {position : Position}
    (hposition : position ∈ sketch.positions key) :
    position.word < sketch.wordsPerRow * sketch.seeds.length ∧ position.shift < 64 := by
  constructor
  · have hword := List.mem_map_of_mem (f := Position.word) hposition
    rw [map_word_positions] at hword
    exact Table.lt_of_mem_places
      (fun seed ↦ div_lt_wordsPerRow (column_lt hpos seed key)) hword
  · obtain ⟨⟨seed, row⟩, -, rfl⟩ := List.mem_map.1 hposition
    exact shiftOf_lt (Nat.mod_lt _ (by decide))

theorem words_increment (sketch : PackedSketch) (key : κ) : (sketch.increment key).words =
    Table.updateAll Position.word (fun position word ↦ raise word position.shift)
      (sketch.positions key) sketch.words := rfl

/-- Counting a key raises one counter of one word in each row. -/
theorem getElem?_increment (hpos : 0 < sketch.width) {row place : Nat} {seed : UInt64}
    (hseed : sketch.seeds[row]? = some seed) (hplace : place < sketch.wordsPerRow) (key : κ) :
    (sketch.increment key).words[row * sketch.wordsPerRow + place]? =
      if sketch.column seed key / 16 = place then
        sketch.words[row * sketch.wordsPerRow + place]?.map
          (raise · (shiftOf (sketch.column seed key % 16)))
      else sketch.words[row * sketch.wordsPerRow + place]? := by
  have hcolumn (seed : UInt64) : sketch.column seed key / 16 < sketch.wordsPerRow :=
    div_lt_wordsPerRow (column_lt hpos seed key)
  have hmem : row * sketch.wordsPerRow + place ∈ (sketch.positions key).map Position.word ↔
      sketch.column seed key / 16 = place := by
    rw [map_word_positions]
    exact Table.mem_places_iff hcolumn hseed hplace
  have hnodup : ((sketch.positions key).map Position.word).Nodup := by
    rw [map_word_positions]
    exact Table.nodup_places hcolumn sketch.seeds
  rw [words_increment]
  split_ifs with hword
  · have hposition := mem_positions hseed key
    rw [locate_eq] at hposition
    rw [← hword]
    exact Table.getElem?_updateAll hnodup hposition sketch.words
  · exact Table.getElem?_updateAll_of_not_mem (hmem.not.2 hword) sketch.words

/-- A counter is raised if its word changes at its place. -/
theorem map_digit_raise {col other : Nat} (hword : other / 16 = col / 16) (word? : Option UInt64) :
    (word?.map (raise · (shiftOf (other % 16)))).map (digit · (col % 16)) =
      if other = col then (word?.map (digit · (col % 16))).map fun count ↦ min (count + 1) 15
      else word?.map (digit · (col % 16)) := by
  have hplace : other % 16 = col % 16 ↔ other = col := by omega
  cases word? with
  | none => simp
  | some word =>
    simp only [Option.map_some, digit_raise (Nat.mod_lt _ (by decide)), hplace]
    split_ifs with heq
    · rw [heq]
    · rfl

/-- Counting a key raises, in each row, the counter of its column and no other. -/
theorem counter?_increment (hpos : 0 < sketch.width) {row col : Nat} {seed : UInt64}
    (hseed : sketch.seeds[row]? = some seed) (hcol : col < sketch.width) (key : κ) :
    (sketch.increment key).counter? row col =
      if sketch.column seed key = col then
        (sketch.counter? row col).map fun count ↦ min (count + 1) 15
      else sketch.counter? row col := by
  have hcounter : (sketch.increment key).counter? row col =
      (sketch.increment key).words[row * sketch.wordsPerRow + col / 16]?.map
        (digit · (col % 16)) := rfl
  rw [hcounter, getElem?_increment hpos hseed (div_lt_wordsPerRow hcol), counter?]
  by_cases hword : sketch.column seed key / 16 = col / 16
  · rw [if_pos hword, map_digit_raise hword]
  · have hne : sketch.column seed key ≠ col := fun heq ↦ hword (by rw [heq])
    rw [if_neg hword, if_neg hne]

theorem counter?_halve (sketch : PackedSketch) (row col : Nat) :
    sketch.halve.counter? row col = (sketch.counter? row col).map (· / 2) := by
  have hcounter : sketch.halve.counter? row col =
      (sketch.words.map halveWord)[row * sketch.wordsPerRow + col / 16]?.map
        (digit · (col % 16)) := rfl
  rw [hcounter, counter?, Array.getElem?_map, Option.map_map, Option.map_map]
  congr 1
  funext word
  exact digit_halveWord (Nat.mod_lt _ (by decide)) word

end KeyHeat.PackedSketch

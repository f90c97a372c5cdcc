import KeyHeat.Proofs.Number.Scaling
import KeyHeat.Workload.Generator

/-!
# Generated keys and the number of keys

All keys are below the number of keys, whatever was drawn before, with one exception. A number
between zero and one is drawn by rounding a word to a double, and the greatest words give exactly
one. A Zipfian distribution over a single key takes this for a point beyond its only key.
-/

namespace KeyHeat

/-! ## Zipfian keys -/

namespace Zipfian

/-- The first term of the sum is one, whatever the skew. -/
theorem zeta_one (theta : Float) : zeta 1 theta = 1 := by
  have hpower : Number.power (Number.ofCount 1) theta = 1 := by
    have hbase : (Number.ofCount 1 == 1) = true := by decide
    rw [Number.power, hbase, Bool.or_true, if_pos rfl]
  have hsum : zeta 1 theta = 0 + 1 / Number.power (Number.ofCount 1) theta := rfl
  rw [hsum, hpower]
  decide +kernel

/-- Of two keys or more the sampler does not leave the range, whatever the point. -/
theorem sample_lt {zipf : Zipfian} (h : 1 < zipf.n) (u : Float) : zipf.sample u < zipf.n := by
  have hlast : zipf.n - 1 < zipf.n := UInt64.sub_lt UInt64.zero_lt_one (UInt64.le_of_lt h)
  simp only [sample]
  split
  case isTrue => exact UInt64.lt_trans UInt64.zero_lt_one h
  case isFalse =>
    split
    case isTrue => exact h
    case isFalse => exact UInt64.lt_of_le_of_lt Std.min_le_right hlast

/-- Whether the sampler takes a point of one, over a single key, for a second key. -/
def HasSecond (theta : Float) : Prop :=
  1 < 1 + Number.power 0.5 (Number.clamp 0 0.9999 theta)

instance (theta : Float) : Decidable (HasSecond theta) := inferInstanceAs (Decidable (_ < _))

/-- The only key is missed by a point that is rounded up to one. -/
theorem sample_one (theta : Float) (word : UInt64) :
    (create 1 theta).sample (Number.part word) =
      if Number.roundingLimit ≤ word.toNat ∧ HasSecond theta then 1 else 0 := by
  have hzeta : (create 1 theta).zetaN = 1 := zeta_one _
  have hlast (spread : UInt64) : min spread ((create 1 theta).n - 1) = 0 := by
    have hcount : (create 1 theta).n = 1 := rfl
    apply UInt64.toNat.inj
    rw [hcount, UInt64.sub_self, UInt64.toNat_min]
    exact Nat.min_zero _
  by_cases hword : Number.roundingLimit ≤ word.toNat
  · have hone : (1 : Float) * 1 = 1 := by decide +kernel
    have hirrefl : ¬(1 : Float) < 1 := by decide +kernel
    simp only [sample, hzeta, Number.part_eq_one hword, hone, hirrefl, if_false, hlast, hword,
      true_and]
    rfl
  · have hpart := (Number.part_lt_one (Nat.lt_of_not_le hword)).2
    simp only [sample, hzeta, hpart, if_true, hword, false_and, if_false]

end Zipfian

/-! ## Draws -/

namespace Generator

/-- A key or a number between zero and one is drawn. -/
inductive Draw where
  | key
  | unit
  deriving DecidableEq, Repr

/-- The generator after a draw. -/
def draw (generator : Generator) : Draw → Generator
  | .key => generator.nextKey.2
  | .unit => generator.nextUnit.2

/-- The generator after some draws, one after the other. -/
def run (generator : Generator) (draws : List Draw) : Generator := draws.foldl draw generator

/-- Where the keys of a workload come from. A scan is at any of the keys. -/
inductive Serves (keyCount : UInt64) : Workload → KeySource → Prop
  | uniform : Serves keyCount .uniform .uniform
  | hotset (hotFraction hotProbability : Float) :
    Serves keyCount (.hotset hotFraction hotProbability) (.hotset hotFraction hotProbability)
  | scan {position : UInt64} (h : position < keyCount) :
    Serves keyCount .scan (.scan position)
  | zipfian (theta : Float) :
    Serves keyCount (.zipfian theta) (.zipfian (.create keyCount theta))

/-- A generator of a workload over some keys, at least one. -/
structure Valid (keyCount : UInt64) (workload : Workload) (generator : Generator) : Prop where
  keyCount_eq : generator.keyCount = keyCount
  pos : 0 < keyCount
  serves : Serves keyCount workload generator.source

variable {keyCount : UInt64} {workload : Workload} {generator : Generator}

theorem valid_create (count : UInt64) (workload : Workload) (seed : UInt64) :
    Valid (max count 1) workload (create count workload seed) := by
  have hpos : 0 < max count 1 := by
    rw [UInt64.lt_iff_toNat_lt, UInt64.toNat_max]
    exact Nat.le_max_right _ _
  refine ⟨rfl, hpos, ?_⟩
  cases workload with
  | uniform => exact .uniform
  | hotset hotFraction hotProbability => exact .hotset hotFraction hotProbability
  | scan => exact .scan hpos
  | zipfian theta => exact .zipfian theta

theorem Valid.nextKey (h : generator.Valid keyCount workload) :
    generator.nextKey.2.Valid keyCount workload := by
  obtain ⟨count, source, rng⟩ := generator
  obtain rfl : count = keyCount := h.keyCount_eq
  have hserves : Serves count workload source := h.serves
  cases hserves with
  | uniform => exact ⟨rfl, h.pos, .uniform⟩
  | hotset hotFraction hotProbability => exact ⟨rfl, h.pos, .hotset hotFraction hotProbability⟩
  | @scan position => exact ⟨rfl, h.pos, .scan (UInt64.mod_lt (position + 1) h.pos)⟩
  | zipfian theta => exact ⟨rfl, h.pos, .zipfian theta⟩

theorem Valid.run (h : generator.Valid keyCount workload) (draws : List Draw) :
    (generator.run draws).Valid keyCount workload := by
  induction draws generalizing generator with
  | nil => exact h
  | cons draw draws ih =>
    cases draw with
    | key => exact ih h.nextKey
    | unit => exact ih ⟨h.keyCount_eq, h.pos, h.serves⟩

/-! ## Keys -/

theorem hotSize_pos (hotFraction : Float) (h : 0 < keyCount) :
    0 < hotSize keyCount hotFraction := by
  rw [UInt64.lt_iff_toNat_lt, hotSize, UInt64.toNat_min, UInt64.toNat_max] at *
  exact Nat.lt_min.mpr ⟨Nat.le_max_right _ _, h⟩

theorem hotSize_le (keyCount : UInt64) (hotFraction : Float) :
    hotSize keyCount hotFraction ≤ keyCount := Std.min_le_right

/-- The keys that are not hot come after those that are. -/
theorem add_mod_lt {hot : UInt64} (word : UInt64) (h : hot < keyCount) :
    hot + word % (keyCount - hot) < keyCount := by
  have hcold : (keyCount - hot).toNat = keyCount.toNat - hot.toNat :=
    UInt64.toNat_sub_of_le _ _ (UInt64.le_of_lt h)
  have hbound := keyCount.toNat_lt
  rw [UInt64.lt_iff_toNat_lt] at h ⊢
  have hkey : word.toNat % (keyCount - hot).toNat < (keyCount - hot).toNat :=
    Nat.mod_lt _ (by omega)
  rw [UInt64.toNat_add, UInt64.toNat_mod, Nat.mod_eq_of_lt (by omega)]
  omega

/-- A single key is missed by a Zipfian distribution when the next word is among the greatest. -/
def Misses (keyCount : UInt64) (workload : Workload) (word : UInt64) : Prop :=
  keyCount = 1 ∧ Number.roundingLimit ≤ word.toNat ∧
    ∃ theta, workload = .zipfian theta ∧ Zipfian.HasSecond theta

theorem misses_zipfian_iff {theta : Float} {word : UInt64} :
    Misses 1 (.zipfian theta) word ↔
      Number.roundingLimit ≤ word.toNat ∧ Zipfian.HasSecond theta := by
  constructor
  · rintro ⟨-, hword, _, ⟨⟩, hsecond⟩
    exact ⟨hword, hsecond⟩
  · rintro ⟨hword, hsecond⟩
    exact ⟨rfl, hword, theta, rfl, hsecond⟩

/-- Only a Zipfian distribution over a single key has a key that is out of range. -/
theorem Valid.nextKey_lt_iff (h : generator.Valid keyCount workload) :
    generator.nextKey.1 < keyCount ↔ ¬Misses keyCount workload generator.rng.next.1 := by
  obtain ⟨count, source, rng⟩ := generator
  obtain rfl : count = keyCount := h.keyCount_eq
  have hserves : Serves count workload source := h.serves
  have hpos := h.pos
  cases hserves with
  | uniform =>
    apply iff_of_true (UInt64.mod_lt rng.next.1 hpos)
    rintro ⟨-, -, theta, ⟨⟩, -⟩
  | hotset hotFraction hotProbability =>
    refine iff_of_true ?_ ?_
    · have hle := hotSize_le count hotFraction
      simp only [Generator.nextKey]
      split_ifs with hunit hall
      · exact UInt64.lt_of_lt_of_le (UInt64.mod_lt _ (hotSize_pos hotFraction hpos)) hle
      · exact UInt64.mod_lt _ hpos
      · exact add_mod_lt _ (UInt64.lt_of_le_of_ne hle hall)
    · rintro ⟨-, -, theta, ⟨⟩, -⟩
  | @scan position hposition =>
    apply iff_of_true hposition
    rintro ⟨-, -, theta, ⟨⟩, -⟩
  | zipfian theta =>
    change (Zipfian.create count theta).sample (Number.part rng.next.1) < _ ↔ _
    by_cases hone : count = 1
    · subst hone
      rw [Zipfian.sample_one, misses_zipfian_iff]
      split_ifs with hmiss
      · exact iff_of_false (UInt64.lt_irrefl _) (not_not_intro hmiss)
      · exact iff_of_true UInt64.zero_lt_one hmiss
    · have hmany : 1 < count := by
        rw [UInt64.lt_iff_toNat_lt] at *
        exact Nat.lt_of_le_of_ne hpos fun heq ↦ hone (UInt64.toNat.inj heq.symm)
      exact iff_of_true (Zipfian.sample_lt hmany _) fun hmiss ↦ hone hmiss.1

theorem Valid.nextKey_eq_one (h : generator.Valid keyCount workload)
    (hmiss : Misses keyCount workload generator.rng.next.1) : generator.nextKey.1 = 1 := by
  obtain ⟨count, source, rng⟩ := generator
  obtain rfl : count = keyCount := h.keyCount_eq
  have hserves : Serves count workload source := h.serves
  obtain ⟨rfl, hword, theta, rfl, hsecond⟩ := hmiss
  cases hserves
  change (Zipfian.create 1 theta).sample (Number.part rng.next.1) = 1
  rw [Zipfian.sample_one, if_pos ⟨hword, hsecond⟩]

/-! ## Runs -/

/-- How the next draw from a generator stays within its range. A key is below the number of keys,
which is at least one, unless a Zipfian distribution over a single key misses it; then it is the
key one. This is due to the numbers between zero and one, which are below one unless the word they
are made from is among the greatest; then they are one. -/
structure StaysWithin (count : UInt64) (workload : Workload) (generator : Generator) : Prop where
  nextKey_lt_iff : generator.nextKey.1 < max count 1 ↔
    ¬Misses (max count 1) workload generator.rng.next.1
  nextKey_eq_one : Misses (max count 1) workload generator.rng.next.1 → generator.nextKey.1 = 1
  nextUnit_lt_iff : generator.nextUnit.1 < 1 ↔
    generator.rng.next.1.toNat < Number.roundingLimit
  nextUnit_eq_one : Number.roundingLimit ≤ generator.rng.next.1.toNat → generator.nextUnit.1 = 1

/-- Whatever was drawn before, a key is below the number of keys unless the only key is missed. -/
theorem staysWithin_of_run (count : UInt64) (workload : Workload) (seed : UInt64)
    (draws : List Draw) : StaysWithin count workload ((create count workload seed).run draws) := by
  have h := (valid_create count workload seed).run draws
  generalize (create count workload seed).run draws = generator at h
  exact {
    nextKey_lt_iff := h.nextKey_lt_iff
    nextKey_eq_one := h.nextKey_eq_one
    nextUnit_lt_iff := Number.part_lt_one_iff
    nextUnit_eq_one := Number.part_eq_one }

/-- A generator for a single key draws the key one. -/
theorem not_nextKey_lt : ¬(create 1 (.zipfian 0) 7650297886450228676).nextKey.1 < max 1 1 := by
  decide +kernel

end Generator

end KeyHeat

import KeyHeat.Proofs.Hash.Mix
import KeyHeat.Proofs.Workload.Keys
import Mathlib.Logic.Function.Iterate

/-!
# The words of a generator do not run out

A step from a word to the next can be undone, and it leaves zero at zero. As no generator is seeded
with zero, none ever comes to it, and two that are in different states never meet. A draw takes a
number of words that is fixed by what is drawn and by where the keys come from, so the same holds
of the generators of a workload.
-/

namespace KeyHeat

namespace XorShift

variable {first second : XorShift} {word : UInt64}

/-! ## Steps -/

theorem injective_step : Function.Injective step := by
  have hone := Hash.injective_xor_shiftLeft 13 (by decide)
  have htwo := Hash.injective_xor_shiftRight 7 (by decide)
  have hthree := Hash.injective_xor_shiftLeft 17 (by decide)
  exact hthree.comp (htwo.comp hone)

theorem bijective_step : Function.Bijective step := Finite.injective_iff_bijective.1 injective_step

theorem step_zero : step 0 = 0 := by decide

theorem step_eq_zero_iff : step word = 0 ↔ word = 0 := injective_step.eq_iff' step_zero

/-! ## Words -/

/-- The generator after some words are taken from it. -/
def after (rng : XorShift) (taken : Nat) : XorShift := (fun rng ↦ rng.next.2)^[taken] rng

theorem state_after (rng : XorShift) (taken : Nat) :
    (rng.after taken).state = step^[taken] rng.state := by
  induction taken generalizing rng with
  | zero => rfl
  | succ taken ih => exact ih rng.next.2

theorem after_add (rng : XorShift) (taken more : Nat) :
    (rng.after taken).after more = rng.after (taken + more) := by
  rw [after, after, after, Nat.add_comm, Function.iterate_add_apply]

theorem state_after_eq_iff (taken : Nat) :
    (first.after taken).state = (second.after taken).state ↔ first.state = second.state := by
  rw [state_after, state_after]
  exact (injective_step.iterate taken).eq_iff

theorem state_after_eq_zero_iff (taken : Nat) :
    (first.after taken).state = 0 ↔ first.state = 0 := by
  have hzero : step^[taken] 0 = 0 := Function.iterate_fixed step_zero taken
  rw [state_after]
  exact (injective_step.iterate taken).eq_iff' hzero

theorem state_ofSeed_ne_zero (seed : UInt64) : (ofSeed seed).state ≠ 0 := by
  rw [ofSeed]
  dsimp only
  split_ifs with hseed
  · decide
  · exact hseed

end XorShift

/-! ## Draws -/

/-- The number of words that are taken for a key. A scan takes none. -/
def KeySource.wordsPerKey : KeySource → Nat
  | uniform => 1
  | hotset _ _ => 2
  | scan _ => 0
  | zipfian _ => 1

namespace Generator

/-- The number of words that are taken for a draw. -/
def Draw.words (wordsPerKey : Nat) : Draw → Nat
  | key => wordsPerKey
  | unit => 1

/-- The number of words that are taken for some draws. -/
def wordsOf (wordsPerKey : Nat) (draws : List Draw) : Nat :=
  (draws.map (Draw.words wordsPerKey)).sum

theorem rng_draw (generator : Generator) (draw : Draw) :
    (generator.draw draw).rng = generator.rng.after (draw.words generator.source.wordsPerKey) := by
  obtain ⟨keyCount, source, rng⟩ := generator
  cases draw with
  | key => cases source <;> rfl
  | unit => rfl

/-- A source that moves on takes as many words for the next key. -/
theorem wordsPerKey_draw (generator : Generator) (draw : Draw) :
    (generator.draw draw).source.wordsPerKey = generator.source.wordsPerKey := by
  obtain ⟨keyCount, source, rng⟩ := generator
  cases draw with
  | key => cases source <;> rfl
  | unit => rfl

theorem rng_run (generator : Generator) (draws : List Draw) :
    (generator.run draws).rng =
      generator.rng.after (wordsOf generator.source.wordsPerKey draws) := by
  induction draws generalizing generator with
  | nil => rfl
  | cons draw draws ih =>
    calc
      _ = (generator.draw draw).rng.after
          (wordsOf (generator.draw draw).source.wordsPerKey draws) := ih _
      _ = _ := by
        rw [rng_draw, wordsPerKey_draw, XorShift.after_add, wordsOf, wordsOf, List.map_cons,
          List.sum_cons]

/-- A step permutes the words, and takes zero alone to zero. Hence no generator of words that is
made from a seed comes to zero, and two that are in different states are so after any number of
words. Generators of keys do not come to zero either, and two in different states remain so under
the same draws, if their keys take equally many words. -/
theorem apart_of_draws :
    Function.Bijective XorShift.step ∧ (∀ word, XorShift.step word = 0 ↔ word = 0) ∧
      (∀ seed taken, ((XorShift.ofSeed seed).after taken).state ≠ 0) ∧
      (∀ (first second : XorShift) (taken : Nat),
        (first.after taken).state = (second.after taken).state ↔ first.state = second.state) ∧
      (∀ count workload seed draws, ((create count workload seed).run draws).rng.state ≠ 0) ∧
      ∀ (first second : Generator) (draws : List Draw),
        first.source.wordsPerKey = second.source.wordsPerKey →
          ((first.run draws).rng.state = (second.run draws).rng.state ↔
            first.rng.state = second.rng.state) := by
  refine ⟨XorShift.bijective_step, fun _ ↦ XorShift.step_eq_zero_iff, ?_,
    fun _ _ ↦ XorShift.state_after_eq_iff, ?_, ?_⟩
  · intro seed taken
    rw [Ne, XorShift.state_after_eq_zero_iff]
    exact XorShift.state_ofSeed_ne_zero seed
  · intro count workload seed draws
    rw [rng_run, Ne, XorShift.state_after_eq_zero_iff]
    exact XorShift.state_ofSeed_ne_zero seed
  · intro first second draws hwords
    rw [rng_run, rng_run, hwords]
    exact XorShift.state_after_eq_iff _

/-- The states differ as the seeds do, though the keys are drawn from them in different ways. -/
theorem apart_of_draws_seeds :
    let first := create 5 .uniform 0
    let second := create 7 (.zipfian 0.5) 2
    first.source.wordsPerKey = second.source.wordsPerKey ∧ first.rng.state ≠ second.rng.state ∧
      (first.run [.key, .unit, .key]).rng.state ≠ (second.run [.key, .unit, .key]).rng.state := by
  intro first second
  have hwords : first.source.wordsPerKey = second.source.wordsPerKey := rfl
  have hne : first.rng.state ≠ second.rng.state := by decide
  obtain ⟨-, -, -, -, -, hiff⟩ := apart_of_draws
  exact ⟨hwords, hne, hne ∘ (hiff first second [.key, .unit, .key] hwords).1⟩

end Generator

end KeyHeat

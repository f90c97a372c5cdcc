import KeyHeat.Proofs.Policy.Run
import Mathlib.Data.List.Basic
import Mathlib.Data.List.Infix
import Std.Data.HashMap

/-!
# The accesses of a run

A log lists accessed keys with the latest in front. It orders keys by how recently they were
accessed, and a list in this order stays in it when some key is accessed and moved to the front.
Without repetitions the log itself is in this order, and an access takes its key to the front.
A key that is resident after a run has a tenure: it was admitted by some call and has been
resident since. A policy that starts to count at an admission counts the accesses of the tenure.
-/

namespace KeyHeat

variable {σ κ : Type}

/-! ## Recency -/

section Recency

variable [BEq κ]

/-- Each key was accessed more recently than those behind it. The log has the latest access in
front, and a key that is not in it counts as accessed before all others. -/
def ByRecency (log keys : List κ) : Prop :=
  keys.Pairwise fun first second ↦ log.idxOf first < log.idxOf second

theorem ByRecency.sublist {log keys fewer : List κ} (h : ByRecency log keys)
    (hsub : fewer.Sublist keys) : ByRecency log fewer := List.Pairwise.sublist hsub h

/-- All other keys were accessed more recently than the last one. -/
theorem ByRecency.lt_getLast {log keys : List κ} (h : ByRecency log keys) {last other : κ}
    (hlast : keys.getLast? = some last) (hmem : other ∈ keys) (hne : other ≠ last) :
    log.idxOf other < log.idxOf last := by
  obtain ⟨init, rfl⟩ := List.getLast?_eq_some_iff.1 hlast
  rw [List.mem_append, List.mem_singleton] at hmem
  rw [ByRecency, List.pairwise_append] at h
  exact h.2.2 other (hmem.resolve_right hne) last (List.mem_singleton_self last)

variable [LawfulBEq κ] {log keys : List κ}

/-- An access to another key leaves the order alone. -/
theorem ByRecency.log_other (h : ByRecency log keys) {key : κ} (hnot : key ∉ keys) :
    ByRecency (key :: log) keys := by
  apply List.Pairwise.imp_of_mem _ h
  intro first second hfirst hsecond hlt
  rw [List.idxOf_cons_ne log (ne_of_mem_of_not_mem hfirst hnot).symm,
    List.idxOf_cons_ne log (ne_of_mem_of_not_mem hsecond hnot).symm]
  exact Nat.succ_lt_succ hlt

/-- The key of an access comes to the front. -/
theorem ByRecency.log_front (h : ByRecency log keys) {key : κ} (hnot : key ∉ keys) :
    ByRecency (key :: log) (key :: keys) := by
  apply List.Pairwise.cons _ (h.log_other hnot)
  intro other hother
  rw [List.idxOf_cons_self, List.idxOf_cons_ne log (ne_of_mem_of_not_mem hother hnot).symm]
  exact Nat.succ_pos _

/-- What was accessed before all of the log does not matter to the keys in it. -/
theorem ByRecency.log_append (h : ByRecency log keys) (hmem : ∀ key ∈ keys, key ∈ log)
    (older : List κ) : ByRecency (log ++ older) keys := by
  apply List.Pairwise.imp_of_mem _ h
  intro first second hfirst hsecond hlt
  rwa [List.idxOf_append_of_mem (hmem first hfirst), List.idxOf_append_of_mem (hmem second hsecond)]

/-! ### Distinct keys -/

/-- Leaving a key out commutes with leaving out repetitions. -/
theorem eraseDups_filter (keys : List κ) (key : κ) :
    (keys.filter (!· == key)).eraseDups = keys.eraseDups.filter (!· == key) := by
  induction hlength : keys.length using Nat.strongRecOn generalizing keys with
  | ind length ih =>
    subst hlength
    cases keys with
    | nil => rfl
    | cons first rest =>
      have hrest := ih _ (Nat.lt_succ_of_le (List.length_filter_le (!· == first) rest)) _ rfl
      rw [List.eraseDups_cons]
      by_cases heq : first = key
      · subst heq
        rw [List.filter_cons_of_neg (by simp), List.filter_cons_of_neg (by simp), ← hrest,
          List.filter_filter]
        simp only [Bool.and_self]
      · rw [List.filter_cons_of_pos (by simpa using heq),
          List.filter_cons_of_pos (by simpa using heq), List.eraseDups_cons, ← hrest,
          List.filter_filter, List.filter_filter]
        simp only [Bool.and_comm]

theorem nodup_eraseDups (keys : List κ) : keys.eraseDups.Nodup := by
  induction keys with
  | nil => exact List.nodup_nil
  | cons first rest ih =>
    rw [List.eraseDups_cons, eraseDups_filter, List.nodup_cons]
    refine ⟨?_, ih.filter _⟩
    intro hmem
    simpa using List.of_mem_filter hmem

/-- An access takes its key to the front of the distinct keys. -/
theorem eraseDups_cons_eq_erase (key : κ) (log : List κ) :
    (key :: log).eraseDups = key :: log.eraseDups.erase key := by
  rw [List.eraseDups_cons, eraseDups_filter, (nodup_eraseDups log).erase_eq_filter]
  rfl

/-- Without repetitions a log lists its keys by their latest accesses. -/
theorem byRecency_eraseDups (log : List κ) : ByRecency log log.eraseDups := by
  induction log with
  | nil => exact List.Pairwise.nil
  | cons key log ih =>
    rw [eraseDups_cons_eq_erase]
    exact (ih.sublist List.erase_sublist).log_front (nodup_eraseDups log).not_mem_erase

omit [LawfulBEq κ] in
theorem take_erase_take (bound : Nat) (key : κ) (keys : List κ) :
    ((keys.take (bound + 1)).erase key).take bound = (keys.erase key).take bound := by
  induction keys generalizing bound with
  | nil => rfl
  | cons first rest ih =>
    rw [List.take_succ_cons, List.erase_cons, List.erase_cons]
    split_ifs
    · rw [List.take_take, Nat.min_self]
    · cases bound with
      | zero => rfl
      | succ bound => rw [List.take_succ_cons, List.take_succ_cons, ih]

/-- The latest keys up to some number are found from those before the last access. -/
theorem take_eraseDups_cons (bound : Nat) (key : κ) (log : List κ) :
    (key :: log).eraseDups.take bound =
      (key :: (log.eraseDups.take bound).erase key).take bound := by
  rw [eraseDups_cons_eq_erase]
  cases bound with
  | zero => rfl
  | succ bound => rw [List.take_succ_cons, List.take_succ_cons, take_erase_take]

end Recency

/-! ## Counts of resident keys -/

section Counts

variable [BEq κ] [Hashable κ] {counts after : Std.HashMap κ Nat} {key : κ} {outcome : Access}

/-- How a call may change the counts of the resident keys. An access is counted if its key is
resident and admits the key with a count of one if not, for which other keys may have to leave. -/
inductive Tallied (counts : Std.HashMap κ Nat) (key : κ) : Access → Std.HashMap κ Nat → Prop
  | counted (count : Nat) (hget : counts[key]? = some count) :
    Tallied counts key (.ok ()) (counts.insert key (count + 1))
  | admitted (kept : Std.HashMap κ Nat) (hnew : counts[key]? = none)
    (hkept : ∀ (other : κ) (count : Nat), kept[other]? = some count → counts[other]? = some count) :
    Tallied counts key (.ok ()) (kept.insert key 1)
  | failed (error : AccessError) : Tallied counts key (.error error) counts

/-- The count of a key that stays or is admitted grows by the accesses to it. -/
theorem Tallied.count_eq [LawfulBEq κ] (h : Tallied counts key outcome after) {other : κ}
    {count : Nat} (hafter : after[other]? = some count) :
    count = counts[other]?.getD 0 +
      (match outcome with | .ok () => [key] | .error _ => []).count other := by
  cases h with
  | counted earlier hget =>
    rw [Std.HashMap.getElem?_insert] at hafter
    simp only [List.count_singleton]
    split_ifs at hafter ⊢ with heq
    · obtain rfl := beq_iff_eq.1 heq
      rw [hget, Option.getD_some, Option.some.inj hafter]
    · rw [hafter, Option.getD_some, Nat.add_zero]
  | admitted kept hnew hkept =>
    rw [Std.HashMap.getElem?_insert] at hafter
    simp only [List.count_singleton]
    split_ifs at hafter ⊢ with heq
    · obtain rfl := beq_iff_eq.1 heq
      rw [hnew, Option.getD_none, ← Option.some.inj hafter]
    · rw [hkept other count hafter, Option.getD_some, Nat.add_zero]
  | failed error =>
    rw [hafter, Option.getD_some]
    rfl

end Counts

namespace Service

variable (serve : Service σ κ)

/-! ## Logs of runs -/

/-- What every call preserves of a state and the accesses so far, the last in front, is preserved
by a run. -/
theorem accesses_invariant {P : List κ → σ → Prop}
    (hserve : ∀ log state call, P log state →
      P ((serve.accessed state call).reverse ++ log) (serve state call).2)
    {start : σ} (h : P [] start) (calls : List (Call κ)) :
    P (serve.accesses start calls).reverse (serve.run start calls) := by
  induction calls using List.reverseRecOn with
  | nil => exact h
  | append_singleton calls call ih =>
    rw [run_concat, accesses_concat, List.reverse_append]
    exact hserve _ _ call ih

/-! ## Admissions -/

/-- The key of the call, if the call accesses a key that is not resident. -/
def admitted (resident : σ → κ → Bool) (state : σ) (call : Call κ) : List κ :=
  if resident state call.key then [] else serve.accessed state call

/-- The keys of the calls of a run that access a key that is not resident, in order. -/
def admissions (resident : σ → κ → Bool) (state : σ) (calls : List (Call κ)) : List κ :=
  serve.collect (serve.admitted resident) state calls

/-! ## Tenures -/

/-- Something is not so after the first calls, and is so after each of those that follow. -/
structure Tenure (resident : σ → Prop) (start : σ) (before stay : List (Call κ)) : Prop where
  ne_nil : stay ≠ []
  absent : ¬resident (serve.run start before)
  present : ∀ first, first <+: stay → first ≠ [] → resident (serve.run start (before ++ first))

variable {serve} {resident : σ → Prop} {start : σ} {before stay : List (Call κ)}

/-- An admission starts a tenure. -/
theorem Tenure.single (habsent : ¬resident (serve.run start before)) {call : Call κ}
    (hpresent : resident (serve.run start (before ++ [call]))) :
    serve.Tenure resident start before [call] := by
  refine ⟨List.cons_ne_nil call [], habsent, ?_⟩
  intro first hfirst hne
  rcases List.prefix_cons_iff.1 hfirst with rfl | ⟨rest, rfl, hrest⟩
  · exact absurd rfl hne
  · rwa [List.prefix_nil.1 hrest]

/-- A call that lets the key stay prolongs its tenure. -/
theorem Tenure.concat (h : serve.Tenure resident start before stay) {call : Call κ}
    (hpresent : resident (serve.run start (before ++ (stay ++ [call])))) :
    serve.Tenure resident start before (stay ++ [call]) := by
  refine ⟨by simp, h.absent, ?_⟩
  intro first hfirst hne
  rcases List.prefix_concat_iff.1 hfirst with rfl | hearlier
  · exact hpresent
  · exact h.present first hearlier hne

/-- What is so after a run, but was not at its start, has been so since some call. -/
theorem exists_tenure_of_run (resident : σ → Prop) (hstart : ¬resident start)
    {calls : List (Call κ)} (hnow : resident (serve.run start calls)) :
    ∃ before call stay, calls = before ++ call :: stay ∧
      serve.Tenure resident start before (call :: stay) := by
  induction calls using List.reverseRecOn with
  | nil => exact absurd hnow hstart
  | append_singleton calls call ih =>
    by_cases hearlier : resident (serve.run start calls)
    · obtain ⟨before, first, stay, rfl, htenure⟩ := ih hearlier
      rw [List.append_assoc] at hnow
      exact ⟨before, first, stay ++ [call], List.append_assoc _ _ _, htenure.concat hnow⟩
    · exact ⟨calls, call, [], rfl, .single hearlier hnow⟩

/-- What a policy counts for a resident key are the accesses to it in its tenure, if each call
adds the access that it makes to the count, which is taken from nothing when the key is admitted. -/
theorem exists_tenure [BEq κ] {P : σ → Prop} {resident : σ → κ → Prop} {count? : σ → κ → Option Nat}
    (hresident : ∀ state key, resident state key ↔ ∃ count, count? state key = some count)
    (hserve : ∀ state call, P state → P (serve state call).2)
    (hcount : ∀ state call, P state → ∀ key, ∀ count ∈ count? (serve state call).2 key,
      count = (count? state key).getD 0 + (serve.accessed state call).count key)
    (hstart : P start) (hnew : ∀ key, count? start key = none) (calls : List (Call κ)) {key : κ}
    {count : Nat} (hkey : count? (serve.run start calls) key = some count) :
    ∃ before stay, calls = before ++ stay ∧
      serve.Tenure (resident · key) start before stay ∧
      count = (serve.accesses (serve.run start before) stay).count key := by
  induction calls using List.reverseRecOn generalizing count with
  | nil =>
    rw [run, hnew] at hkey
    cases hkey
  | append_singleton calls call ih =>
    have hpresent : resident (serve.run start (calls ++ [call])) key :=
      (hresident _ _).2 ⟨count, hkey⟩
    rw [run_concat] at hkey
    have hnext := hcount _ call (serve.run_invariant hserve hstart calls) key count hkey
    cases hold : count? (serve.run start calls) key with
    | none =>
      have habsent : ¬resident (serve.run start calls) key := by
        rw [hresident, hold]
        rintro ⟨_, ⟨⟩⟩
      refine ⟨calls, [call], rfl, .single habsent hpresent, ?_⟩
      rw [hnext, hold, accesses, accesses, List.append_nil]
      exact Nat.zero_add _
    | some earlier =>
      obtain ⟨before, stay, rfl, htenure, hearlier⟩ := ih hold
      rw [List.append_assoc] at hpresent ⊢
      refine ⟨before, stay ++ [call], rfl, htenure.concat hpresent, ?_⟩
      calc
        count = earlier + (serve.accessed (serve.run start (before ++ stay)) call).count key := by
          rw [hnext, hold, Option.getD_some]
        _ = (serve.accesses (serve.run start before) (stay ++ [call])).count key := by
          rw [accesses_concat, List.count_append, hearlier, run_append]

end Service

end KeyHeat

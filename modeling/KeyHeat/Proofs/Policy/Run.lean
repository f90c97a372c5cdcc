import KeyHeat.Error

/-!
# Runs of a policy

A policy serves calls one after the other: each call has an outcome and leaves a state for the
next. What every call preserves is preserved by a run. The calls that succeed are the accesses of
a run. Reads of keys that are not found can be left out of a run; the others keep their order, and
each has a number of missed reads before it.
-/

namespace KeyHeat

/-- A call to a policy. -/
inductive Call (κ : Type) where
  | put (key : κ)
  | get (key : κ)
  deriving DecidableEq, Repr

def Call.key {κ : Type} : Call κ → κ
  | put key => key
  | get key => key

/-- How a policy serves a call: the outcome and the state that it leaves. -/
abbrev Service (σ κ : Type) := σ → Call κ → Access × σ

namespace Service

variable {σ κ : Type} (serve : Service σ κ)

/-- The state after some calls, one after the other. -/
def run (state : σ) : List (Call κ) → σ
  | [] => state
  | call :: calls => run (serve state call).2 calls

/-- The key of the call, if the call succeeds. -/
def accessed (state : σ) (call : Call κ) : List κ :=
  match (serve state call).1 with
  | .ok () => [call.key]
  | .error _ => []

/-- The keys of the calls of a run that succeed, in order. -/
def accesses (state : σ) : List (Call κ) → List κ
  | [] => []
  | call :: calls => serve.accessed state call ++ accesses (serve state call).2 calls

/-- What is noted at each call of a run, in order. -/
def collect {α : Type} (note : σ → Call κ → List α) (state : σ) : List (Call κ) → List α
  | [] => []
  | call :: calls => note state call ++ collect note (serve state call).2 calls

/-- The outcomes of the calls of a run, in order. -/
def outcomes (state : σ) (calls : List (Call κ)) : List Access :=
  serve.collect (fun state call ↦ [(serve state call).1]) state calls

/-- Whether the call is a read of a key that is not found. -/
def misses (state : σ) : Call κ → Bool
  | .put _ => false
  | .get key => (serve state (.get key)).1 matches .error .notFound

/-- The calls of a run without the reads that miss. -/
def hits (state : σ) : List (Call κ) → List (Call κ)
  | [] => []
  | call :: calls =>
    if serve.misses state call then hits (serve state call).2 calls
    else call :: hits (serve state call).2 calls

/-- The number of reads that miss before the call of the given rank among the others, the first
of which has rank one. -/
def missesBefore (state : σ) : List (Call κ) → Nat → Nat
  | [], _ => 0
  | _, 0 => 0
  | call :: calls, rank + 1 =>
    if serve.misses state call then missesBefore (serve state call).2 calls (rank + 1) + 1
    else missesBefore (serve state call).2 calls rank

theorem missesBefore_zero (state : σ) (calls : List (Call κ)) :
    serve.missesBefore state calls 0 = 0 := by
  cases calls <;> rfl

variable {serve} in
theorem missesBefore_of_misses {state : σ} {call : Call κ}
    (hmiss : serve.misses state call = true) (calls : List (Call κ)) (rank : Nat) :
    serve.missesBefore state (call :: calls) (rank + 1) =
      serve.missesBefore (serve state call).2 calls (rank + 1) + 1 := by
  rw [missesBefore, if_pos hmiss]

variable {serve} in
theorem missesBefore_of_not_misses {state : σ} {call : Call κ}
    (hkept : ¬serve.misses state call = true) (calls : List (Call κ)) (rank : Nat) :
    serve.missesBefore state (call :: calls) (rank + 1) =
      serve.missesBefore (serve state call).2 calls rank := by
  rw [missesBefore, if_neg hkept]

theorem run_append (state : σ) (first second : List (Call κ)) :
    serve.run state (first ++ second) = serve.run (serve.run state first) second := by
  induction first generalizing state with
  | nil => rfl
  | cons call calls ih => exact ih _

theorem run_concat (state : σ) (calls : List (Call κ)) (call : Call κ) :
    serve.run state (calls ++ [call]) = (serve (serve.run state calls) call).2 :=
  serve.run_append state calls [call]

theorem collect_append {α : Type} (note : σ → Call κ → List α) (state : σ)
    (first second : List (Call κ)) :
    serve.collect note state (first ++ second) =
      serve.collect note state first ++ serve.collect note (serve.run state first) second := by
  induction first generalizing state with
  | nil => rfl
  | cons call calls ih =>
    rw [List.cons_append, collect, collect, ih, List.append_assoc]
    rfl

theorem collect_concat {α : Type} (note : σ → Call κ → List α) (state : σ)
    (calls : List (Call κ)) (call : Call κ) :
    serve.collect note state (calls ++ [call]) =
      serve.collect note state calls ++ note (serve.run state calls) call := by
  rw [collect_append, collect, collect, List.append_nil]

theorem outcomes_cons (state : σ) (call : Call κ) (calls : List (Call κ)) :
    serve.outcomes state (call :: calls) =
      (serve state call).1 :: serve.outcomes (serve state call).2 calls := rfl

theorem accesses_eq_collect (state : σ) (calls : List (Call κ)) :
    serve.accesses state calls = serve.collect serve.accessed state calls := by
  induction calls generalizing state with
  | nil => rfl
  | cons call calls ih => rw [accesses, collect, ih]

theorem accesses_append (state : σ) (first second : List (Call κ)) :
    serve.accesses state (first ++ second) =
      serve.accesses state first ++ serve.accesses (serve.run state first) second := by
  simp only [accesses_eq_collect, collect_append]

theorem accesses_concat (state : σ) (calls : List (Call κ)) (call : Call κ) :
    serve.accesses state (calls ++ [call]) =
      serve.accesses state calls ++ serve.accessed (serve.run state calls) call := by
  rw [accesses_append, accesses, accesses, List.append_nil]

theorem run_invariant {P : σ → Prop} (hserve : ∀ state call, P state → P (serve state call).2)
    {state : σ} (h : P state) (calls : List (Call κ)) : P (serve.run state calls) := by
  induction calls generalizing state with
  | nil => exact h
  | cons call calls ih => exact ih (hserve state call h)

/-- All calls are accesses if none of them fails. -/
theorem accesses_eq_map {P : σ → Prop} (hserve : ∀ state call, P state → P (serve state call).2)
    {calls : List (Call κ)}
    (hok : ∀ state, P state → ∀ call ∈ calls, (serve state call).1 = .ok ()) {state : σ}
    (h : P state) : serve.accesses state calls = calls.map Call.key := by
  induction calls generalizing state with
  | nil => rfl
  | cons call calls ih =>
    have hfirst : (serve state call).1 = .ok () := hok state h call List.mem_cons_self
    have hrest : serve.accesses (serve state call).2 calls = calls.map Call.key := by
      apply ih _ (hserve state call h)
      intro state h call hmem
      exact hok state h call (List.mem_cons_of_mem _ hmem)
    rw [accesses, accessed, hfirst, hrest, List.map_cons, List.singleton_append]

end Service

end KeyHeat

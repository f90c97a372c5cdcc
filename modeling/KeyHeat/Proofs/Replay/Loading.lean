import KeyHeat.Replay.Plan
import Mathlib.Data.List.Basic

/-!
# Loading the accesses of a trace

Loading goes through the items of a trace until it has as many accesses as it may take. What it
takes are the first accesses of the trace. The errors on the way are those with too few accesses
before them, and in strict mode the first of them is the answer instead.
-/

namespace KeyHeat.Replay

/-! ## Items -/

/-- The accesses among the items of a trace. -/
def accesses (items : List TraceItem) : List TraceOp := items.filterMap Except.toOption

def errors (items : List TraceItem) : List TraceError :=
  items.filterMap fun
    | .ok _ => none
    | .error error => some error

@[simp]
theorem accesses_nil : accesses [] = [] := rfl

@[simp]
theorem accesses_ok (op : TraceOp) (rest : List TraceItem) :
    accesses (.ok op :: rest) = op :: accesses rest := rfl

@[simp]
theorem accesses_error (error : TraceError) (rest : List TraceItem) :
    accesses (.error error :: rest) = accesses rest := rfl

@[simp]
theorem errors_nil : errors [] = [] := rfl

@[simp]
theorem errors_ok (op : TraceOp) (rest : List TraceItem) :
    errors (.ok op :: rest) = errors rest := rfl

@[simp]
theorem errors_error (error : TraceError) (rest : List TraceItem) :
    errors (.error error :: rest) = error :: errors rest := rfl

/-- The first of a list, as many as the limit allows. Zero is no limit. -/
def upTo {α : Type} (limit : Nat) (list : List α) : List α :=
  if limit = 0 then list else list.take limit

/-- These items are before the error, and their accesses do not reach the limit. -/
def Before (limit : Nat) (items : List TraceItem) (error : TraceError) (before : List TraceItem) :
    Prop :=
  (∃ after, items = before ++ .error error :: after) ∧
    (limit = 0 ∨ (accesses before).length < limit)

/-- The error comes before the limit is reached. -/
def OnTheWay (limit : Nat) (items : List TraceItem) (error : TraceError) : Prop :=
  ∃ before, Before limit items error before

/-- The error comes before the limit is reached and before all other errors. -/
def FirstOnTheWay (limit : Nat) (items : List TraceItem) (error : TraceError) : Prop :=
  ∃ before, Before limit items error before ∧ errors before = []

section

variable {limit : Nat} {rest : List TraceItem} {op : TraceOp} {error other : TraceError}

theorem before_ok {before : List TraceItem} : Before limit (.ok op :: rest) error before ↔
    limit ≠ 1 ∧ ∃ others, before = .ok op :: others ∧ Before (limit - 1) rest error others := by
  constructor
  · rintro ⟨⟨after, heq⟩, hlimit⟩
    cases before with
    | nil => cases heq
    | cons item others =>
      obtain ⟨rfl, hrest⟩ := List.cons.inj heq
      rw [accesses_ok, List.length_cons] at hlimit
      exact ⟨by omega, others, rfl, ⟨after, hrest⟩, by omega⟩
  · rintro ⟨hne, others, rfl, ⟨after, rfl⟩, hlimit⟩
    refine ⟨⟨after, rfl⟩, ?_⟩
    rw [accesses_ok, List.length_cons]
    omega

theorem before_error {before : List TraceItem} : Before limit (.error other :: rest) error before ↔
    other = error ∧ before = [] ∨
      ∃ others, before = .error other :: others ∧ Before limit rest error others := by
  constructor
  · rintro ⟨⟨after, heq⟩, hlimit⟩
    cases before with
    | nil =>
      cases heq
      exact .inl ⟨rfl, rfl⟩
    | cons item others =>
      obtain ⟨rfl, hrest⟩ := List.cons.inj heq
      exact .inr ⟨others, rfl, ⟨after, hrest⟩, hlimit⟩
  · rintro (⟨rfl, rfl⟩ | ⟨others, rfl, ⟨after, rfl⟩, hlimit⟩)
    · exact ⟨⟨rest, rfl⟩, Nat.eq_zero_or_pos limit⟩
    · exact ⟨⟨after, rfl⟩, hlimit⟩

end

/-! ## What is on the way -/

/-- The items up to the access with which the limit is reached, all if it is not. -/
def seen (limit : Nat) : List TraceItem → List TraceItem
  | [] => []
  | .error error :: rest => .error error :: seen limit rest
  | .ok op :: rest => .ok op :: if limit = 1 then [] else seen (limit - 1) rest

theorem accesses_seen (limit : Nat) (items : List TraceItem) :
    accesses (seen limit items) = upTo limit (accesses items) := by
  induction items generalizing limit with
  | nil => simp [seen, upTo]
  | cons item rest ih =>
    cases item with
    | error error => exact ih limit
    | ok op =>
      rw [seen, accesses_ok, accesses_ok]
      match limit with
      | 0 =>
        rw [if_neg Nat.zero_ne_one, ih]
        rfl
      | 1 => rfl
      | limit + 2 =>
        rw [if_neg (by omega), ih]
        rfl

theorem mem_errors_seen {limit : Nat} {items : List TraceItem} {error : TraceError} :
    error ∈ errors (seen limit items) ↔ OnTheWay limit items error := by
  induction items generalizing limit with
  | nil => simp [seen, OnTheWay, Before]
  | cons item rest ih =>
    cases item with
    | error other =>
      rw [seen, errors_error, List.mem_cons, ih]
      simp only [OnTheWay, before_error]
      grind
    | ok op =>
      rw [seen, errors_ok]
      simp only [OnTheWay, before_ok] at ih ⊢
      split_ifs with hlimit
      · simp [hlimit]
      · rw [ih]
        grind

theorem head?_errors_seen {limit : Nat} {items : List TraceItem} {error : TraceError} :
    (errors (seen limit items)).head? = some error ↔ FirstOnTheWay limit items error := by
  induction items generalizing limit with
  | nil => simp [seen, FirstOnTheWay, Before]
  | cons item rest ih =>
    cases item with
    | error other =>
      rw [seen, errors_error, List.head?_cons]
      simp only [FirstOnTheWay, before_error]
      grind [errors_nil, errors_error]
    | ok op =>
      rw [seen, errors_ok]
      simp only [FirstOnTheWay, before_ok] at ih ⊢
      split_ifs with hlimit
      · simp [hlimit]
      · rw [ih]
        grind [errors_ok]

/-! ## Loading -/

section

variable {limit count : Nat}

/-- The limit has not been reached yet. -/
theorem load_lenient (hcount : limit = 0 ∨ count < limit) (done : List TraceOp)
    (skipped : Nat) (items : List TraceItem) :
    loadTrace.load limit false done count skipped items =
      .ok (done.reverse ++ accesses (seen (limit - count) items),
        skipped + (errors (seen (limit - count) items)).length) := by
  induction items generalizing count done skipped with
  | nil => simp [loadTrace.load, seen]
  | cons item rest ih =>
    cases item with
    | error error =>
      rw [loadTrace.load, if_neg Bool.false_ne_true, ih hcount, seen, errors_error, accesses_error,
        List.length_cons, Nat.add_right_comm]
      rfl
    | ok op =>
      rw [loadTrace.load, seen, accesses_ok, errors_ok]
      split_ifs with hlimit hone hone
      · simp
      · omega
      · omega
      · rw [ih (by omega), Nat.sub_sub]
        simp

theorem load_strict (hcount : limit = 0 ∨ count < limit) (done : List TraceOp)
    (skipped : Nat) (items : List TraceItem) :
    loadTrace.load limit true done count skipped items =
      match (errors (seen (limit - count) items)).head? with
      | some error => .error error
      | none => .ok (done.reverse ++ accesses (seen (limit - count) items), skipped) := by
  induction items generalizing count done with
  | nil => simp [loadTrace.load, seen]
  | cons item rest ih =>
    cases item with
    | error error =>
      rw [loadTrace.load, if_pos rfl, seen, errors_error]
      rfl
    | ok op =>
      rw [loadTrace.load, seen, accesses_ok, errors_ok]
      split_ifs with hlimit hone hone
      · simp
      · omega
      · omega
      · rw [ih (by omega), Nat.sub_sub]
        simp

end

theorem loadTrace_lenient (limit : Nat) (items : List TraceItem) :
    loadTrace limit false items =
      .ok (upTo limit (accesses items), (errors (seen limit items)).length) := by
  have hload := load_lenient (Nat.eq_zero_or_pos limit) [] 0 items
  rw [Nat.sub_zero, accesses_seen, Nat.zero_add] at hload
  exact hload

theorem loadTrace_strict (limit : Nat) (items : List TraceItem) :
    loadTrace limit true items =
      match (errors (seen limit items)).head? with
      | some error => .error error
      | none => loadTrace limit false items := by
  have hload := load_strict (Nat.eq_zero_or_pos limit) [] 0 items
  rw [Nat.sub_zero, accesses_seen] at hload
  rw [loadTrace_lenient]
  refine hload.trans ?_
  cases errors (seen limit items) <;> rfl

/-- Loading takes the first accesses of a trace, as many as the limit allows. In strict mode it
fails if an error comes before the limit is reached, with the first such error, and else it loads
the same accesses. If it is not strict, the errors before the limit is reached are skipped. -/
theorem loads_first (limit : Nat) (items : List TraceItem) :
    (loadTrace limit false items =
      .ok (upTo limit (accesses items), (errors (seen limit items)).length)) ∧
    (∀ error, error ∈ errors (seen limit items) ↔ OnTheWay limit items error) ∧
    ((∃ error, loadTrace limit true items = .error error) ↔
      ∃ error, OnTheWay limit items error) ∧
    (∀ error, loadTrace limit true items = .error error ↔ FirstOnTheWay limit items error) ∧
    ((∀ error, ¬ OnTheWay limit items error) →
      loadTrace limit true items = loadTrace limit false items) := by
  have hstrict := loadTrace_strict limit items
  have hmem (error : TraceError) : error ∈ errors (seen limit items) ↔
      OnTheWay limit items error := mem_errors_seen
  have hfirst (error : TraceError) : (errors (seen limit items)).head? = some error ↔
      FirstOnTheWay limit items error := head?_errors_seen
  refine ⟨loadTrace_lenient limit items, hmem, ?_, ?_, ?_⟩
  · simp only [← hmem]
    rw [hstrict, loadTrace_lenient]
    cases errors (seen limit items) with
    | nil => simp
    | cons error others => exact iff_of_true ⟨error, rfl⟩ ⟨error, List.mem_cons_self⟩
  · intro error
    rw [← hfirst, hstrict, loadTrace_lenient]
    cases (errors (seen limit items)).head? <;> simp
  · intro hnone
    have hnil : errors (seen limit items) = [] :=
      List.eq_nil_iff_forall_not_mem.2 fun error ↦ mt (hmem error).1 (hnone error)
    rw [hstrict, hnil]
    rfl

/-- The first error is passed over if one access is enough, and the second one if two are. -/
theorem loads_first_mixed :
    let items : List TraceItem :=
      [.ok (.get [97]), .error ⟨2, .line .emptyKey⟩, .ok (.put [98]),
        .error ⟨5, .line (.fieldCount 3)⟩, .ok (.put [99])]
    (∀ error, ¬ OnTheWay 1 items error) ∧ loadTrace 1 true items = .ok ([.get [97]], 0) ∧
      FirstOnTheWay 2 items ⟨2, .line .emptyKey⟩ ∧
      loadTrace 2 true items = .error ⟨2, .line .emptyKey⟩ ∧
      loadTrace 2 false items = .ok ([.get [97], .put [98]], 1) ∧
      loadTrace 0 false items = .ok ([.get [97], .put [98], .put [99]], 2) := by
  intro items
  obtain ⟨hone, hmem, -, -, hsame⟩ := loads_first 1 items
  obtain ⟨htwo, -, -, hfirst, -⟩ := loads_first 2 items
  have hnone : ∀ error, ¬ OnTheWay 1 items error := fun error ↦
    mt (hmem error).2 List.not_mem_nil
  have hfail : loadTrace 2 true items = .error ⟨2, .line .emptyKey⟩ := rfl
  exact ⟨hnone, (hsame hnone).trans hone, (hfirst _).1 hfail, hfail, htwo,
    (loads_first 0 items).1⟩

end KeyHeat.Replay

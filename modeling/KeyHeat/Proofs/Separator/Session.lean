import KeyHeat.Proofs.Policy.Lfu
import KeyHeat.Proofs.Policy.Lirs.SelfCheck
import KeyHeat.Proofs.Policy.Lru
import KeyHeat.Proofs.Policy.LruK
import KeyHeat.Proofs.Policy.SketchWindow
import KeyHeat.Proofs.Policy.SlidingWindow
import KeyHeat.Proofs.Policy.TopK
import KeyHeat.Proofs.Separator.Build

/-!
# Sessions with a separator

A session is a separator in use: it is written to and read from at times that never go back. The
main results hold for every policy, all parameters that are accepted and every session. The
self-check finds nothing, the capacity is kept and each access is answered as the policy says; and
the keys listed as hot are those that are classified as hot, each listed once.
-/

namespace KeyHeat

/-! ## What a specification promises -/

namespace Spec

/-- The answer to every write. -/
def putAnswer : Spec → Access
  | unimplemented policy => .error (.unimplemented policy)
  | spec => if spec.capacity? = some 0 then .error .capacity else .ok ()

/-- The answer to a read of a key that is tracked or not. Five policies look the key up; the
others count the read. -/
def getAnswer (tracked : Bool) : Spec → Access
  | lru .. | lfu .. | lruK .. | lirs .. | s3Fifo .. =>
    if tracked then .ok () else .error .notFound
  | spec => spec.putAnswer

theorem putAnswer_of_capacity {spec : Spec} {capacity : Nat} (h : spec.capacity? = some capacity) :
    spec.putAnswer = if capacity = 0 then .error .capacity else .ok () := by
  cases spec with
  | unimplemented => cases h
  | _ => simp [putAnswer, h]

theorem putAnswer_ne_invariant (spec : Spec) (detail : String) :
    spec.putAnswer ≠ .error (.invariant detail) := by
  unfold putAnswer
  split
  · simp
  · split_ifs <;> simp

theorem getAnswer_ne_invariant (spec : Spec) (tracked : Bool) (detail : String) :
    spec.getAnswer tracked ≠ .error (.invariant detail) := by
  have hlookup : (if tracked then .ok () else .error .notFound : Access) ≠
      .error (.invariant detail) := by
    split_ifs <;> simp
  have hcounted := spec.putAnswer_ne_invariant detail
  cases spec with
  | lru | lfu | lruK | lirs | s3Fifo => exact hlookup
  | window | sketchWindow | wTinyLfu | heapTopK | unimplemented => exact hcounted

end Spec

variable {κ : Type} [BEq κ] [Hashable κ]

/-- Whether a policy knows the key: as resident, as remembered or as counted. -/
def Separator.tracks (separator : Separator κ) (key : κ) : Bool :=
  match separator with
  | lru state => state.keys.contains key
  | lfu state => state.frequencies.contains key
  | lruK state => state.counts.contains key
  | window state => state.counts.contains key
  | sketchWindow state => state.window.contains key
  | wTinyLfu state => state.window.contains key || state.isHot key
  | lirs state => state.index.contains key
  | s3Fifo state => state.entries.contains key
  | heapTopK state => state.counts.contains key
  | unimplemented _ => false

/-- A separator at a time is in a valid state and has the parameters of a specification. -/
inductive Separator.Meets (now : Nat) : Spec → Separator κ → Prop
  | lru {state : Lru κ} {capacity : Nat} (h : state.Valid) (hcapacity : state.capacity = capacity) :
    Meets now (.lru capacity) (.lru state)
  | lfu {state : Lfu κ} {capacity minFrequency : Nat} (h : state.Valid)
    (hcapacity : state.capacity = capacity) : Meets now (.lfu capacity minFrequency) (.lfu state)
  | lruK {state : LruK κ} {k capacity : Nat} (h : state.Valid)
    (hcapacity : state.capacity = capacity) : Meets now (.lruK k capacity) (.lruK state)
  | window {state : SlidingWindow κ} {span threshold : Nat} (h : state.Valid now) :
    Meets now (.window span threshold) (.window state)
  | sketchWindow {state : SketchWindow κ} {windowSize threshold : Nat} {epsilon delta : Float}
    {bounded : Bool} (h : state.Valid)
    (hcapacity : state.capacity? = if bounded then some windowSize else none) :
    Meets now (.sketchWindow windowSize epsilon delta threshold bounded) (.sketchWindow state)
  | wTinyLfu {state : TinyLfu κ} {capacity : Nat} {tuning : TinyLfuTuning} (h : state.Valid)
    (hcapacity : state.capacity = capacity) :
    Meets now (.wTinyLfu capacity tuning) (.wTinyLfu state)
  | lirs {state : Lirs κ} {capacity : Nat} {lirRatio : Float} {maxNonResident : Option Nat}
    (h : state.Valid) (hcapacity : state.capacity = capacity) :
    Meets now (.lirs capacity lirRatio maxNonResident) (.lirs state)
  | s3Fifo {state : S3Fifo κ} {capacity : Nat} {smallRatio ghostRatio : Float} (h : state.Valid)
    (hcapacity : state.capacity = capacity) :
    Meets now (.s3Fifo capacity smallRatio ghostRatio) (.s3Fifo state)
  | heapTopK {state : TopK κ} {k threshold : Nat} (h : state.Valid) (hk : state.k = k) :
    Meets now (.heapTopK k threshold) (.heapTopK state)
  | unimplemented {policy : Policy} : Meets now (.unimplemented policy) (.unimplemented policy)

namespace Separator

variable {spec : Spec} {separator : Separator κ} {now : Nat}

/-! ## Between accesses -/

theorem Meets.mono (h : Meets now spec separator) {later : Nat} (hle : now ≤ later) :
    Meets later spec separator := by
  cases h with
  | window hvalid => exact .window (hvalid.mono hle)
  | lru hvalid hcapacity => exact .lru hvalid hcapacity
  | lfu hvalid hcapacity => exact .lfu hvalid hcapacity
  | lruK hvalid hcapacity => exact .lruK hvalid hcapacity
  | sketchWindow hvalid hcapacity => exact .sketchWindow hvalid hcapacity
  | wTinyLfu hvalid hcapacity => exact .wTinyLfu hvalid hcapacity
  | lirs hvalid hcapacity => exact .lirs hvalid hcapacity
  | s3Fifo hvalid hcapacity => exact .s3Fifo hvalid hcapacity
  | heapTopK hvalid hk => exact .heapTopK hvalid hk
  | unimplemented => exact .unimplemented

theorem Meets.capacity?_eq (h : Meets now spec separator) :
    separator.capacity? = spec.capacity? := by
  cases h with
  | window hvalid => rfl
  | lru hvalid hcapacity => exact congrArg some hcapacity
  | lfu hvalid hcapacity => exact congrArg some hcapacity
  | lruK hvalid hcapacity => exact congrArg some hcapacity
  | sketchWindow hvalid hcapacity => exact hcapacity
  | wTinyLfu hvalid hcapacity => exact congrArg some hcapacity
  | lirs hvalid hcapacity => exact congrArg some hcapacity
  | s3Fifo hvalid hcapacity => exact congrArg some hcapacity
  | heapTopK hvalid hk => exact congrArg some hk
  | unimplemented => rfl

variable [LawfulBEq κ]

theorem Meets.check_eq (h : Meets now spec separator) : separator.check = .ok () := by
  cases h with
  | window hvalid => exact hvalid.check_eq
  | lru hvalid hcapacity => exact hvalid.check_eq
  | lfu hvalid hcapacity => exact hvalid.check_eq
  | lruK hvalid hcapacity => exact hvalid.check_eq
  | sketchWindow hvalid hcapacity => rfl
  | wTinyLfu hvalid hcapacity => exact hvalid.check_eq
  | lirs hvalid hcapacity => exact hvalid.check_eq
  | s3Fifo hvalid hcapacity => exact hvalid.check_eq
  | heapTopK hvalid hk => exact hvalid.check_eq
  | unimplemented => rfl

theorem Meets.size_le (h : Meets now spec separator) {capacity : Nat}
    (hcapacity : separator.capacity? = some capacity) : separator.size ≤ capacity := by
  cases h with
  | window hvalid => cases hcapacity
  | lru hvalid _ => cases hcapacity; exact hvalid.size_le
  | lfu hvalid _ => cases hcapacity; exact hvalid.size_le
  | lruK hvalid _ => cases hcapacity; exact hvalid.size_le
  | sketchWindow hvalid _ => exact hvalid.size_le_capacity hcapacity
  | wTinyLfu hvalid _ => cases hcapacity; exact hvalid.size_le
  | lirs hvalid _ => cases hcapacity; exact hvalid.size_le
  | s3Fifo hvalid _ => cases hcapacity; exact hvalid.size_le
  | heapTopK hvalid _ => cases hcapacity; exact hvalid.size_le
  | unimplemented => cases hcapacity

theorem Meets.nodup_hotKeys [HashMaterial κ] [Ord κ] (h : Meets now spec separator) (later : Nat) :
    (separator.hotKeys later).Nodup := by
  cases h with
  | window hvalid => exact SlidingWindow.nodup_hotKeys _ later
  | lru hvalid _ => exact hvalid.nodup_hotKeys
  | lfu hvalid _ => exact hvalid.nodup_hotKeys
  | lruK hvalid _ => exact hvalid.nodup_hotKeys
  | sketchWindow hvalid _ => exact hvalid.nodup_hotKeys
  | wTinyLfu hvalid _ => exact hvalid.nodup_hotKeys
  | lirs hvalid _ => exact hvalid.nodup_hotKeys
  | s3Fifo hvalid _ => exact hvalid.nodup_hotKeys
  | heapTopK hvalid _ => exact TopK.nodup_hotKeys _
  | unimplemented => exact List.nodup_nil

theorem Meets.mem_hotKeys [HashMaterial κ] [Ord κ] (h : Meets now spec separator) {later : Nat}
    {key : κ} : key ∈ separator.hotKeys later ↔ separator.isHot later key = true := by
  cases h with
  | window hvalid => exact hvalid.mem_hotKeys
  | lru hvalid _ => exact hvalid.mem_hotKeys
  | lfu hvalid _ => exact hvalid.mem_hotKeys
  | lruK hvalid _ => exact hvalid.mem_hotKeys
  | sketchWindow hvalid _ => exact hvalid.mem_hotKeys
  | wTinyLfu hvalid _ => exact hvalid.mem_hotKeys
  | lirs hvalid _ => exact hvalid.mem_hotKeys
  | s3Fifo hvalid _ => exact hvalid.mem_hotKeys
  | heapTopK hvalid _ => exact TopK.mem_hotKeys
  | unimplemented => simp [hotKeys, isHot]

/-! ## Construction -/

theorem meets_of_build (hbuild : build spec = .ok separator) (now : Nat) :
    Meets now spec separator := by
  cases spec with
  | lru capacity =>
    cases hbuild
    exact .lru (Lru.valid_empty capacity) rfl
  | lfu capacity minFrequency =>
    cases hbuild
    exact .lfu (Lfu.valid_empty capacity minFrequency) rfl
  | lruK k capacity =>
    obtain ⟨state, hstate, rfl⟩ := exists_of_map_eq_ok hbuild
    replace hstate := Halt.ofRefusal_eq_ok.1 hstate
    exact .lruK (LruK.valid_create hstate).1 (LruK.valid_create hstate).2
  | window span threshold =>
    obtain ⟨state, hstate, rfl⟩ := exists_of_map_eq_ok hbuild
    replace hstate := Halt.ofRefusal_eq_ok.1 hstate
    exact .window (SlidingWindow.valid_create hstate now)
  | sketchWindow windowSize epsilon delta threshold bounded =>
    obtain ⟨state, hstate, rfl⟩ := exists_of_map_eq_ok hbuild
    replace hstate := Halt.ofRefusal_eq_ok.1 hstate
    exact .sketchWindow (SketchWindow.valid_create hstate).1 (SketchWindow.valid_create hstate).2
  | wTinyLfu capacity tuning =>
    obtain ⟨state, hstate, rfl⟩ := exists_of_map_eq_ok hbuild
    exact .wTinyLfu (TinyLfu.valid_create hstate).1 (TinyLfu.valid_create hstate).2
  | lirs capacity lirRatio maxNonResident =>
    obtain ⟨state, hstate, rfl⟩ := exists_of_map_eq_ok hbuild
    replace hstate := Halt.ofRefusal_eq_ok.1 hstate
    have hcapacity : state.capacity = capacity := by
      rw [Lirs.create_eq hstate]
      rfl
    exact .lirs (Lirs.valid_create hstate) hcapacity
  | s3Fifo capacity smallRatio ghostRatio =>
    obtain ⟨state, hstate, rfl⟩ := exists_of_map_eq_ok hbuild
    obtain ⟨hvalid, hcapacity, -⟩ := S3Fifo.valid_create hstate
    exact .s3Fifo hvalid hcapacity
  | heapTopK k threshold =>
    cases hbuild
    exact .heapTopK (TopK.valid_empty k threshold) rfl
  | unimplemented policy =>
    cases hbuild
    exact .unimplemented

/-! ## Accesses -/

variable [HashMaterial κ]

theorem Meets.put (h : Meets now spec separator) (key : κ) :
    Meets now spec (separator.put now key).2 := by
  cases h with
  | lru hvalid hcapacity => exact .lru (hvalid.put key) ((Lru.capacity_put key).trans hcapacity)
  | lfu hvalid hcapacity => exact .lfu (hvalid.put key) ((Lfu.capacity_put key).trans hcapacity)
  | lruK hvalid hcapacity => exact .lruK (hvalid.put key) ((LruK.capacity_put key).trans hcapacity)
  | window hvalid => exact .window (hvalid.access (Nat.le_refl now) key)
  | sketchWindow hvalid hcapacity =>
    exact .sketchWindow (hvalid.access key) ((SketchWindow.capacity?_access key).trans hcapacity)
  | wTinyLfu hvalid hcapacity =>
    exact .wTinyLfu (hvalid.access key) ((TinyLfu.capacity_access key).trans hcapacity)
  | lirs hvalid hcapacity =>
    exact .lirs (hvalid.put key).1 ((hvalid.put key).2.1.capacity_eq.trans hcapacity)
  | @s3Fifo state _ _ _ hvalid hcapacity =>
    exact .s3Fifo (hvalid.put key) ((congrArg (·.2.2) (state.quotas_put key)).trans hcapacity)
  | heapTopK hvalid hk => exact .heapTopK (hvalid.access key) ((TopK.k_access key).trans hk)
  | unimplemented => exact .unimplemented

theorem Meets.get (h : Meets now spec separator) (key : κ) :
    Meets now spec (separator.get now key).2 := by
  cases h with
  | lru hvalid hcapacity => exact .lru (hvalid.get key) ((Lru.capacity_get key).trans hcapacity)
  | lfu hvalid hcapacity => exact .lfu (hvalid.get key) ((Lfu.capacity_get key).trans hcapacity)
  | lruK hvalid hcapacity => exact .lruK (hvalid.get key) ((LruK.capacity_get key).trans hcapacity)
  | window hvalid => exact .window (hvalid.access (Nat.le_refl now) key)
  | sketchWindow hvalid hcapacity =>
    exact .sketchWindow (hvalid.access key) ((SketchWindow.capacity?_access key).trans hcapacity)
  | wTinyLfu hvalid hcapacity =>
    exact .wTinyLfu (hvalid.access key) ((TinyLfu.capacity_access key).trans hcapacity)
  | lirs hvalid hcapacity =>
    exact .lirs (hvalid.get key).1 ((hvalid.get key).2.1.capacity_eq.trans hcapacity)
  | @s3Fifo state _ _ _ hvalid hcapacity =>
    exact .s3Fifo (hvalid.get key) ((congrArg (·.2.2) (state.quotas_get key)).trans hcapacity)
  | heapTopK hvalid hk => exact .heapTopK (hvalid.access key) ((TopK.k_access key).trans hk)
  | unimplemented => exact .unimplemented

theorem Meets.put_fst (h : Meets now spec separator) (key : κ) :
    (separator.put now key).1 = spec.putAnswer := by
  have hcapacity := h.capacity?_eq.symm
  cases h with
  | lru _ _ => exact (Lru.put_fst key).trans (Spec.putAnswer_of_capacity hcapacity).symm
  | lfu _ _ => exact (Lfu.put_fst key).trans (Spec.putAnswer_of_capacity hcapacity).symm
  | lruK _ _ => exact (LruK.put_fst key).trans (Spec.putAnswer_of_capacity hcapacity).symm
  | window _ => rfl
  | @sketchWindow state _ _ _ _ _ _ hbound =>
    calc
      (state.access key).1 = if state.capacity? = some 0 then .error .capacity else .ok () :=
        SketchWindow.access_fst key
      _ = _ := by
        rw [hbound]
        rfl
  | wTinyLfu _ _ => exact (TinyLfu.access_fst key).trans (Spec.putAnswer_of_capacity hcapacity).symm
  | lirs hvalid _ =>
    exact (hvalid.put key).2.2.trans (Spec.putAnswer_of_capacity hcapacity).symm
  | s3Fifo _ _ => exact (S3Fifo.put_fst key).trans (Spec.putAnswer_of_capacity hcapacity).symm
  | heapTopK _ _ => exact (TopK.access_fst key).trans (Spec.putAnswer_of_capacity hcapacity).symm
  | unimplemented => rfl

/-- The policies that count every access answer a read as they answer a write. -/
theorem Meets.get_fst (h : Meets now spec separator) (key : κ) :
    (separator.get now key).1 = spec.getAnswer (separator.tracks key) := by
  have hput := h.put_fst key
  cases h with
  | lru hvalid _ => exact hvalid.get_fst key
  | lfu hvalid _ => exact hvalid.get_fst key
  | lruK _ _ => exact LruK.get_fst key
  | window _ => exact hput
  | sketchWindow _ _ => exact hput
  | wTinyLfu _ _ => exact hput
  | lirs hvalid _ => exact (hvalid.get key).2.2
  | s3Fifo _ _ => exact S3Fifo.get_fst key
  | heapTopK _ _ => exact hput
  | unimplemented => exact hput

end Separator

/-! ## Sessions -/

/-- What happens in a session. Times are in milliseconds. -/
inductive Event (κ : Type) where
  | put (key : κ)
  | get (key : κ)
  | wait (time : Nat)
  deriving Repr

/-- A separator in use and the present time. -/
structure Session (κ : Type) [BEq κ] [Hashable κ] where
  separator : Separator κ
  now : Nat

namespace Session

variable [HashMaterial κ]

def step (session : Session κ) : Event κ → Session κ
  | .put key => { session with separator := (session.separator.put session.now key).2 }
  | .get key => { session with separator := (session.separator.get session.now key).2 }
  | .wait time => { session with now := session.now + time }

/-- The session after some events, one after the other. -/
def run (session : Session κ) (events : List (Event κ)) : Session κ := events.foldl step session

variable [LawfulBEq κ] {spec : Spec}

/-- The separator of the session is in a valid state for the specification. -/
def Meets (session : Session κ) (spec : Spec) : Prop :=
  Separator.Meets session.now spec session.separator

theorem Meets.step {session : Session κ} (h : session.Meets spec) (event : Event κ) :
    (session.step event).Meets spec := by
  cases event with
  | put key => exact Separator.Meets.put h key
  | get key => exact Separator.Meets.get h key
  | wait time => exact Separator.Meets.mono h (Nat.le_add_right _ _)

theorem Meets.run {session : Session κ} (h : session.Meets spec) (events : List (Event κ)) :
    (session.run events).Meets spec := by
  induction events generalizing session with
  | nil => exact h
  | cons event events ih => exact ih (h.step event)

/-- A session with a separator that was built to a specification, at any point. -/
def Reachable (session : Session κ) (spec : Spec) : Prop :=
  ∃ (start : Separator κ) (now : Nat) (events : List (Event κ)),
    Separator.build spec = .ok start ∧ session = run ⟨start, now⟩ events

theorem Reachable.meets {session : Session κ} (h : session.Reachable spec) :
    session.Meets spec := by
  obtain ⟨start, now, events, hbuild, rfl⟩ := h
  have hstart : (⟨start, now⟩ : Session κ).Meets spec := Separator.meets_of_build hbuild now
  exact hstart.run events

/-! ## What holds at any point of a session -/

/-- The self-check finds nothing, the capacity is kept, and the next access is answered as the
specification says, which is never that the separator is in disorder. -/
theorem answers_of_reachable {session : Session κ} (h : session.Reachable spec) :
    session.separator.check = .ok () ∧
      (∀ capacity, session.separator.capacity? = some capacity →
        session.separator.size ≤ capacity) ∧
      session.separator.capacity? = spec.capacity? ∧
      ∀ key : κ, (session.separator.put session.now key).1 = spec.putAnswer ∧
        (session.separator.get session.now key).1 =
          spec.getAnswer (session.separator.tracks key) ∧
        ∀ detail, (session.separator.put session.now key).1 ≠ .error (.invariant detail) ∧
          (session.separator.get session.now key).1 ≠ .error (.invariant detail) := by
  have hmeets : Separator.Meets session.now spec session.separator := h.meets
  have hsize : ∀ capacity, session.separator.capacity? = some capacity →
      session.separator.size ≤ capacity := by
    intro capacity hcapacity
    exact hmeets.size_le hcapacity
  refine ⟨hmeets.check_eq, hsize, hmeets.capacity?_eq, ?_⟩
  intro key
  have hput := hmeets.put_fst key
  have hget := hmeets.get_fst key
  refine ⟨hput, hget, ?_⟩
  intro detail
  constructor
  · rw [hput]
    exact spec.putAnswer_ne_invariant detail
  · rw [hget]
    exact spec.getAnswer_ne_invariant _ detail

theorem build_s3Fifo_half :
    Separator.build (κ := UInt64) (.s3Fifo 4 0.5 0.5) = .ok (.s3Fifo (.ofQuotas 2 2 2)) := by
  have hcreate : S3Fifo.create (κ := UInt64) 4 0.5 0.5 = .ok (.ofQuotas 2 2 2) := by
    have hsmall : (!Number.within 0 1 0.5) = false := by decide
    have hghost : (!(0.5 : Float).isFinite || (0.5 : Float) < 0) = false := by decide
    have hshare : S3Fifo.smallShare 4 0.5 = 2 := by decide
    have hghosts : S3Fifo.ghostShare 4 0.5 = 2 := by decide
    have hmain : S3Fifo.mainShare 4 2 = .ok 2 := rfl
    simp only [S3Fifo.create, hsmall, hghost, hshare, hghosts, hmain, Bool.false_eq_true, if_false]
    rfl
  rw [Separator.build, hcreate]
  rfl

/-- Three keys overflow the small queue, and the one that was read goes on to the main queue. A
key that was never written is not found. -/
theorem answers_of_reachable_s3Fifo :
    (run (κ := UInt64) ⟨.s3Fifo (.ofQuotas 2 2 2), 0⟩
        [.put 1, .get 1, .put 2, .put 3, .wait 5]).Reachable (.s3Fifo 4 0.5 0.5) ∧
      (run (κ := UInt64) ⟨.s3Fifo (.ofQuotas 2 2 2), 0⟩
        [.put 1, .get 1, .put 2, .put 3, .wait 5]).separator.check = .ok () ∧
      ((run (κ := UInt64) ⟨.s3Fifo (.ofQuotas 2 2 2), 0⟩
        [.put 1, .get 1, .put 2, .put 3, .wait 5]).separator.get 5 9).1 = .error .notFound := by
  have hreachable : (run (κ := UInt64) ⟨.s3Fifo (.ofQuotas 2 2 2), 0⟩
      [.put 1, .get 1, .put 2, .put 3, .wait 5]).Reachable (.s3Fifo 4 0.5 0.5) :=
    ⟨_, 0, _, build_s3Fifo_half, rfl⟩
  have hunknown : (run (κ := UInt64) ⟨.s3Fifo (.ofQuotas 2 2 2), 0⟩
      [.put 1, .get 1, .put 2, .put 3, .wait 5]).separator.tracks 9 = false := by cbv
  obtain ⟨hcheck, -, -, hanswers⟩ := answers_of_reachable hreachable
  have hanswer : ((run (κ := UInt64) ⟨.s3Fifo (.ofQuotas 2 2 2), 0⟩
      [.put 1, .get 1, .put 2, .put 3, .wait 5]).separator.get 5 9).1 = .error .notFound := by
    apply (hanswers 9).2.1.trans
    rw [hunknown]
    rfl
  exact ⟨hreachable, hcheck, hanswer⟩

/-- The keys listed as hot are those classified as hot, each listed once. -/
theorem hotKeys_of_reachable [Ord κ] {session : Session κ} (h : session.Reachable spec) :
    (session.separator.hotKeys session.now).Nodup ∧ ∀ key : κ,
      key ∈ session.separator.hotKeys session.now ↔
        session.separator.isHot session.now key = true := by
  have hmeets : Separator.Meets session.now spec session.separator := h.meets
  constructor
  · exact hmeets.nodup_hotKeys session.now
  · intro key
    exact hmeets.mem_hotKeys

/-- The key that went on to the main queue after it was read is hot. -/
theorem hotKeys_of_reachable_s3Fifo :
    (run (κ := UInt64) ⟨.s3Fifo (.ofQuotas 2 2 2), 0⟩
        [.put 1, .get 1, .put 2, .put 3, .wait 5]).Reachable (.s3Fifo 4 0.5 0.5) ∧
      (run (κ := UInt64) ⟨.s3Fifo (.ofQuotas 2 2 2), 0⟩
        [.put 1, .get 1, .put 2, .put 3, .wait 5]).separator.hotKeys 5 = [1] ∧
      (run (κ := UInt64) ⟨.s3Fifo (.ofQuotas 2 2 2), 0⟩
        [.put 1, .get 1, .put 2, .put 3, .wait 5]).separator.isHot 5 1 = true := by
  have hreachable : (run (κ := UInt64) ⟨.s3Fifo (.ofQuotas 2 2 2), 0⟩
      [.put 1, .get 1, .put 2, .put 3, .wait 5]).Reachable (.s3Fifo 4 0.5 0.5) :=
    ⟨_, 0, _, build_s3Fifo_half, rfl⟩
  have hlisted : (run (κ := UInt64) ⟨.s3Fifo (.ofQuotas 2 2 2), 0⟩
      [.put 1, .get 1, .put 2, .put 3, .wait 5]).separator.hotKeys 5 = [1] := by cbv
  have hmem : 1 ∈ (run (κ := UInt64) ⟨.s3Fifo (.ofQuotas 2 2 2), 0⟩
      [.put 1, .get 1, .put 2, .put 3, .wait 5]).separator.hotKeys 5 := by
    rw [hlisted]
    exact List.mem_singleton_self 1
  exact ⟨hreachable, hlisted, ((hotKeys_of_reachable hreachable).2 1).1 hmem⟩

end Session

end KeyHeat

import KeyHeat.Proofs.Ensemble.Isolation
import KeyHeat.Proofs.Replay.Chunks
import KeyHeat.Proofs.Separator.Provenance
import KeyHeat.Proofs.Trace.Keys

/-!
# Files of hot keys lose nothing

The hot keys of the instances and of the ground truth are keys of the replayed trace, and these are
lines. So a file of hot keys falls into the reported list again when it is split at its newlines,
and no other list of keys is written in the same way.
-/

namespace KeyHeat

/-! ## The ground truth -/

section Counts

variable {κ : Type} [BEq κ] [Hashable κ] {stats : AccessCounts κ} {key other : κ}

/-- Hot keys have been counted. -/
theorem AccessCounts.mem_of_hot [LawfulBEq κ] [Ord κ] {portion : Float}
    (h : key ∈ stats.hotKeys portion) : key ∈ stats.counts := by
  obtain ⟨⟨hot, count⟩, hranked, rfl⟩ := List.mem_map.1 h
  have hcounted : (hot, count) ∈ stats.counts.toList :=
    List.mem_mergeSort.1 (List.mem_of_mem_take hranked)
  rw [Std.HashMap.mem_toList_iff_getElem?_eq_some] at hcounted
  exact mem_of_getElem? hcounted

theorem AccessCounts.mem_record [LawfulBEq κ] (h : other ∈ (stats.record key).counts) :
    other = key ∨ other ∈ stats.counts := by
  by_cases heq : key == other
  · exact .inl (beq_iff_eq.1 heq).symm
  · rw [AccessCounts.record, Std.HashMap.mem_alter, if_neg heq] at h
    exact .inr h

end Counts

/-- An operation enters at most its own key. -/
theorem TraceOp.mem_record {op : TraceOp} {stats : AccessCounts Bytes} {key : Bytes}
    (h : key ∈ (op.record stats).counts) : op.key = key ∨ key ∈ stats.counts := by
  cases op with
  | get accessed => exact (AccessCounts.mem_record h).imp_left Eq.symm
  | put accessed => exact (AccessCounts.mem_record h).imp_left Eq.symm
  | delete deleted => exact .inr (Std.HashMap.mem_of_mem_erase h)

namespace Replay

theorem mem_foldl_record {ops : List TraceOp} {start : AccessCounts Bytes} {key : Bytes}
    (h : key ∈ (ops.foldl (fun stats op ↦ op.record stats) start).counts) :
    (∃ op ∈ ops, op.key = key) ∨ key ∈ start.counts := by
  induction ops generalizing start with
  | nil => exact .inr h
  | cons op ops ih =>
    rcases ih h with ⟨later, hin, hkey⟩ | hbefore
    · exact .inl ⟨later, List.mem_cons_of_mem op hin, hkey⟩
    · apply (TraceOp.mem_record hbefore).imp_left
      intro hkey
      exact ⟨op, List.mem_cons_self, hkey⟩

theorem mem_count {ops : List TraceOp} {key : Bytes} (h : key ∈ (count ops).counts) :
    ∃ op ∈ ops, op.key = key :=
  (mem_foldl_record h).resolve_right Std.HashMap.not_mem_empty

/-! ## The instances -/

/-- A worker tells the instances of its operations, all at one time. -/
theorem feedAll_eq (now : Nat) (ensemble : Ensemble Bytes) (ops : List TraceOp) :
    feedAll now ensemble ops =
      (JointSession.traceRun ⟨ensemble, now⟩ (ops.map .op)).ensemble := by
  induction ops generalizing ensemble with
  | nil => rfl
  | cons op ops ih => exact ih _

/-- The instances are fed the operations in their order, however many workers there are. -/
theorem replay_eq (now threads : Nat) (ensemble : Ensemble Bytes) (ops : List TraceOp) :
    (replay now threads ensemble ops).2 =
      (JointSession.traceRun ⟨ensemble, now⟩ (ops.map .op)).ensemble :=
  (foldl_feedAll_chunks now threads ensemble ops).trans (feedAll_eq now ensemble ops)

end Replay

namespace Ensemble

variable {κ : Type} [BEq κ] [Hashable κ]

/-- No instance has been told of anything yet. -/
def Fresh (ensemble : Ensemble κ) : Prop :=
  ∀ inst ∈ ensemble.instances, ∃ spec, Separator.build spec = .ok inst.separator

theorem fresh_of_buildFrom {index : Nat} {separators : List NamedSpec}
    {instances : List (Instance κ)} (h : buildFrom index separators = .ok instances) :
    Fresh ⟨instances⟩ := by
  induction separators generalizing index instances with
  | nil =>
    cases h
    exact List.forall_mem_nil _
  | cons named separators ih =>
    rw [buildFrom] at h
    cases hbuild : Separator.build (κ := κ) named.spec with
    | error problem =>
      rw [hbuild] at h
      cases h
    | ok separator =>
      rw [hbuild] at h
      obtain ⟨others, hothers, rfl⟩ := exists_of_map_eq_ok h
      exact List.forall_mem_cons.2 ⟨⟨named.spec, hbuild⟩, ih hothers⟩

theorem fresh_of_ofConfig {config : Config} {ensemble : Ensemble κ}
    (h : ofConfig config = .ok ensemble) : ensemble.Fresh := by
  obtain ⟨instances, hinstances, rfl⟩ := exists_of_map_eq_ok h
  exact fresh_of_buildFrom hinstances

end Ensemble

/-- The key of what an ensemble is told of, if it is an access. -/
def TraceEvent.key? (told : TraceEvent) : Option Bytes := told.event?.bind Event.key?

/-- Every reported key is that of an access that the ensemble was told of. -/
theorem JointSession.told_of_report {start : JointSession Bytes} (hfresh : start.ensemble.Fresh)
    {told : List TraceEvent} {later : Nat} {name : String} {keys : List Bytes}
    (hreport : (name, keys) ∈ ((start.traceRun told).ensemble.report later).1) {key : Bytes}
    (hkey : key ∈ keys) : key ∈ told.filterMap TraceEvent.key? := by
  simp only [Ensemble.report, traceRun_eq, instances_run, List.map_map, List.mem_map] at hreport
  obtain ⟨inst, hinst, hentry⟩ := hreport
  obtain ⟨spec, hbuild⟩ := hfresh inst hinst
  have hkeys : (inst.alone start.now (told.filterMap TraceEvent.event?)).separator.hotKeys later =
      keys := congrArg Prod.snd hentry
  rw [← hkeys, inst.separator_alone] at hkey
  have htold := Session.told_of_hot hbuild _ _ hkey
  rw [List.filterMap_filterMap] at htold
  exact htold

/-! ## Files -/

/-- The keys of the operations that a trace yields. -/
def TraceReader.keys (deliveries : List Delivery) : Set Bytes :=
  {key | ∃ op, .ok op ∈ ofDeliveries deliveries ∧ op.key = key}

/-- It is an operation of the trace, or no access at all. -/
def TraceEvent.IsFrom (deliveries : List Delivery) : TraceEvent → Prop
  | event told => told.key? = none
  | op told => .ok told ∈ TraceReader.ofDeliveries deliveries

theorem TraceEvent.IsFrom.key_mem {deliveries : List Delivery} {told : TraceEvent}
    (h : told.IsFrom deliveries) {key : Bytes} (hkey : told.key? = some key) :
    key ∈ TraceReader.keys deliveries := by
  cases told with
  | event event =>
    have hnone : event.key? = none := h
    have hsome : event.key? = some key := hkey
    cases hnone.symm.trans hsome
  | op op =>
    cases op with
    | get accessed =>
      cases hkey
      exact ⟨_, h, rfl⟩
    | put accessed =>
      cases hkey
      exact ⟨_, h, rfl⟩
    | delete deleted => cases hkey

/-- These are keys of the trace, and a file of them can be split into the list again and is the file
of no other list. -/
structure Lossless (deliveries : List Delivery) (keys : List Bytes) : Prop where
  subset : ∀ key ∈ keys, key ∈ TraceReader.keys deliveries
  splitLines_eq : TraceReader.splitLines (Report.lines keys) = (keys, [])
  eq_of_lines_eq : ∀ others : List Bytes, (∀ key ∈ others, IsLine key) →
    Report.lines others = Report.lines keys → others = keys

theorem isLine_of_mem_keys {deliveries : List Delivery} {key : Bytes}
    (h : key ∈ TraceReader.keys deliveries) : IsLine key := by
  obtain ⟨op, hop, rfl⟩ := h
  exact TraceReader.isLine_ofDeliveries hop

theorem lossless_of_subset {deliveries : List Delivery} {keys : List Bytes}
    (h : ∀ key ∈ keys, key ∈ TraceReader.keys deliveries) : Lossless deliveries keys := by
  have hlines : ∀ key ∈ keys, IsLine key := fun key hkey ↦ isLine_of_mem_keys (h key hkey)
  exact {
    subset := h
    splitLines_eq := Report.splitLines_lines hlines
    eq_of_lines_eq := fun _ hothers ↦ Report.lines_injective hothers hlines }

theorem lossless_of_report {deliveries : List Delivery} {start : JointSession Bytes}
    (hfresh : start.ensemble.Fresh) {told : List TraceEvent}
    (htold : ∀ event ∈ told, event.IsFrom deliveries) {later : Nat} {entry : String × List Bytes}
    (hreport : entry ∈ ((start.traceRun told).ensemble.report later).1) :
    Lossless deliveries entry.2 := by
  apply lossless_of_subset
  intro key hkey
  have htell := JointSession.told_of_report hfresh hreport hkey
  obtain ⟨event, hevent, heq⟩ := List.mem_filterMap.1 htell
  exact (htold event hevent).key_mem heq

/-- The keys of a trace are lines, so every file of them is lossless: any list of them, what new
instances report after they were told of operations of the trace with any waits between, and what a
replay of such operations reports of the ground truth and of the configured instances. -/
theorem lossless_of_trace (deliveries : List Delivery) :
    (∀ key ∈ TraceReader.keys deliveries, IsLine key) ∧
    (∀ keys : List Bytes, (∀ key ∈ keys, key ∈ TraceReader.keys deliveries) →
      Lossless deliveries keys) ∧
    (∀ start : JointSession Bytes, start.ensemble.Fresh → ∀ told : List TraceEvent,
      (∀ event ∈ told, event.IsFrom deliveries) → ∀ later : Nat,
      ∀ entry ∈ ((start.traceRun told).ensemble.report later).1, Lossless deliveries entry.2) ∧
    ∀ (config : Config) (ensemble : Ensemble Bytes), Ensemble.ofConfig config = .ok ensemble →
      ∀ ops : List TraceOp, (∀ op ∈ ops, .ok op ∈ TraceReader.ofDeliveries deliveries) →
      ∀ now threads later : Nat,
        Lossless deliveries
          ((Replay.replay now threads ensemble ops).1.hotKeys config.hotKeyPortion) ∧
        ∀ entry ∈ ((Replay.replay now threads ensemble ops).2.report later).1,
          Lossless deliveries entry.2 := by
  refine ⟨fun key ↦ isLine_of_mem_keys, fun keys ↦ lossless_of_subset, ?_, ?_⟩
  · intro start hfresh told htold later entry hreport
    exact lossless_of_report hfresh htold hreport
  · intro config ensemble hconfig ops hops now threads later
    constructor
    · apply lossless_of_subset
      intro key hkey
      obtain ⟨op, hop, hkey⟩ := Replay.mem_count (AccessCounts.mem_of_hot hkey)
      exact ⟨op, hops op hop, hkey⟩
    · intro entry hreport
      rw [Replay.replay_eq] at hreport
      apply lossless_of_report (Ensemble.fresh_of_ofConfig hconfig) _ hreport
      intro event hevent
      obtain ⟨op, hop, rfl⟩ := List.mem_map.1 hevent
      exact hops op hop

/-- Writes of two keys. The second line comes in two parts. -/
def twoWrites : List Delivery :=
  [.chunk "put,b\nput".toUTF8.toList, .chunk ",a\n".toUTF8.toList]

theorem ofDeliveries_twoWrites :
    TraceReader.ofDeliveries twoWrites = [.ok (.put [98]), .ok (.put [97])] := by
  decide +kernel

/-- Both keys are written to the file of the only instance, the later one first. -/
theorem lossless_of_trace_twoWrites :
    ∃ ensemble : Ensemble Bytes,
      Ensemble.ofConfig ⟨0, 0.5, [⟨"lru", .lru 2⟩], []⟩ = .ok ensemble ∧ ensemble.Fresh ∧
      ((JointSession.traceRun ⟨ensemble, 0⟩
        [.op (.put [98]), .event (.wait 5), .op (.put [97])]).ensemble.report 5).1 =
          [("lru", [[97], [98]])] ∧
      ((Replay.replay 0 2 ensemble [.put [98], .put [97]]).2.report 5).1 =
        [("lru", [[97], [98]])] ∧
      Report.lines [[97], [98]] = "a\nb\n".toUTF8.toList ∧
      IsLine [98] ∧ Lossless twoWrites [[98]] ∧ Lossless twoWrites [[97], [98]] ∧
      Lossless twoWrites
        ((Replay.replay 0 2 ensemble [.put [98], .put [97]]).1.hotKeys 0.5) := by
  let config : Config := ⟨0, 0.5, [⟨"lru", .lru 2⟩], []⟩
  let ensemble : Ensemble Bytes := ⟨[.ofSeparator "lru" (.lru (.empty 2))]⟩
  have hconfig : Ensemble.ofConfig config = .ok ensemble := rfl
  have hfresh : ensemble.Fresh := Ensemble.fresh_of_ofConfig hconfig
  have hops : ∀ op ∈ [TraceOp.put [98], .put [97]],
      .ok op ∈ TraceReader.ofDeliveries twoWrites := by
    rw [ofDeliveries_twoWrites]
    decide
  have htold : ∀ event ∈ [TraceEvent.op (.put [98]), .event (.wait 5), .op (.put [97])],
      event.IsFrom twoWrites := by
    simp only [List.forall_mem_cons, TraceEvent.IsFrom, Event.key?]
    exact ⟨hops _ (by decide), trivial, hops _ (by decide), List.forall_mem_nil _⟩
  have hkey : [98] ∈ TraceReader.keys twoWrites := ⟨_, hops (.put [98]) (by decide), rfl⟩
  have hrun : ((JointSession.traceRun ⟨ensemble, 0⟩
      [.op (.put [98]), .event (.wait 5), .op (.put [97])]).ensemble.report 5).1 =
        [("lru", [[97], [98]])] := by
    cbv
  have hreplay : ((Replay.replay 0 2 ensemble [.put [98], .put [97]]).2.report 5).1 =
      [("lru", [[97], [98]])] := by
    rw [Replay.replay_eq]
    cbv
  obtain ⟨hline, hlist, hreported, hreplayed⟩ := lossless_of_trace twoWrites
  obtain ⟨htruth, -⟩ := hreplayed config ensemble hconfig _ hops 0 2 5
  have hreported := hreported ⟨ensemble, 0⟩ hfresh _ htold 5 ("lru", [[97], [98]])
  rw [hrun] at hreported
  exact ⟨ensemble, hconfig, hfresh, hrun, hreplay, by decide +kernel, hline _ hkey,
    hlist _ (List.forall_mem_singleton.2 hkey), hreported List.mem_cons_self, htruth⟩

end KeyHeat

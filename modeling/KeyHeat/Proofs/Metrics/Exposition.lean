import KeyHeat.Proofs.Metrics.Reader
import Mathlib.Data.List.Nodup

/-!
# What readers make of metrics

The name of a separator is written without escapes, and every sample brings the type of its metric
along. So a reader recovers the samples exactly when no name has a character to escape, and the text
keeps to the form only as long as there are not two separators that share a metric.
-/

namespace KeyHeat.Exposition

/-! ## First lines -/

theorem readLines_append {line : List Char} (h : '\n' ∉ line) (rest : List Char) :
    readLines (line ++ '\n' :: rest) =
      (readLine line).bind fun first ↦ (readLines rest).map (first :: ·) := by
  have hline : ∀ c ∈ line, (c == '\n') = false := fun c hc ↦ by
    simpa using ne_of_mem_of_not_mem hc h
  rw [readLines, List.splitOn, List.splitOnP_append_cons_of_forall_mem hline _ (by decide),
    List.mapM_cons]
  cases readLine line with
  | none => rfl
  | some first =>
    change (readLines rest).bind _ = _
    cases readLines rest <;> rfl

theorem exists_first_line (cs rest : List Char) : ∃ later,
    cs ++ '\n' :: rest = cs.takeWhile (· != '\n') ++ '\n' :: later := by
  induction cs with
  | nil => exact ⟨rest, rfl⟩
  | cons c cs ih =>
    by_cases hc : c = '\n'
    · subst hc
      exact ⟨cs ++ '\n' :: rest, rfl⟩
    · obtain ⟨later, hlater⟩ := ih
      rw [List.takeWhile_cons_of_pos (by simpa using hc), List.cons_append, hlater]
      exact ⟨later, rfl⟩

/-! ## Backslashes -/

theorem count_escape (cs : List Char) :
    (escape cs).count '\\' = 2 * cs.count '\\' + cs.count '"' + cs.count '\n' := by
  induction cs with
  | nil => rfl
  | cons c cs ih =>
    rw [escape_cons, List.count_append, ih]
    obtain h | rfl | rfl | rfl := isPlain_or c
    · simp [escapeChar_of_isPlain h, h.1, h.2.1, h.2.2]
    · simp [escapeChar]
      omega
    · simp [escapeChar]
      omega
    · simp [escapeChar]
      omega

/-- Every escape adds a backslash. -/
theorem isPlain_of_count_escape {cs : List Char} (h : (escape cs).count '\\' ≤ cs.count '\\') :
    ∀ c ∈ cs, IsPlain c := by
  rw [count_escape] at h
  have hbackslash : '\\' ∉ cs := List.count_eq_zero.mp (by omega)
  have hquote : '"' ∉ cs := List.count_eq_zero.mp (by omega)
  have hfeed : '\n' ∉ cs := List.count_eq_zero.mp (by omega)
  exact fun c hc ↦ ⟨ne_of_mem_of_not_mem hc hbackslash, ne_of_mem_of_not_mem hc hquote,
    ne_of_mem_of_not_mem hc hfeed⟩

theorem escape_of_isPlain {cs : List Char} (h : ∀ c ∈ cs, IsPlain c) : escape cs = cs := by
  induction cs with
  | nil => rfl
  | cons c cs ih =>
    obtain ⟨hc, hcs⟩ := List.forall_mem_cons.mp h
    rw [escape_cons, escapeChar_of_isPlain hc, ih hcs, List.singleton_append]

/-! ## One sample -/

theorem IsWord.not_mem {head : Char → Bool} {word : List Char} (h : IsWord head word) {c : Char}
    (hc : ¬ tailOf head c) : c ∉ word := fun hmem ↦ hc (h.forall_tailOf c hmem)

theorem not_mem_toDigits {c : Char} (hc : ¬ c.isDigit) (n : Nat) : c ∉ Nat.toDigits 10 n :=
  fun hmem ↦ hc (Nat.isDigit_of_mem_toDigits (by decide) (by decide) hmem)

theorem toList_sampleText (lead : String) (sample : Sample) :
    let metric := metricName lead sample.metric
    (sampleText lead sample).toList = typeLine metric sample.type.text ++ '\n' ::
      (sampleLine metric sample.separator.toList sample.value ++ ['\n']) := by
  intro metric
  change ("# TYPE " ++ metric ++ " " ++ sample.type.text ++ "\n" ++ metric ++
    "\x7bseparator=\"" ++ sample.separator ++ "\"\x7d " ++ toString sample.value ++ "\n").toList = _
  simp [typeLine, sampleLine]

section

variable {metric : String} (hmetric : IsWord metricHead metric.toList)

include hmetric

theorem count_sampleLine (separator : List Char) (value : Nat) :
    (sampleLine metric separator value).count '\\' = separator.count '\\' := by
  have hname : metric.toList.count '\\' = 0 := List.count_eq_zero.mpr (hmetric.not_mem (by decide))
  have hvalue : (Nat.toDigits 10 value).count '\\' = 0 :=
    List.count_eq_zero.mpr (not_mem_toDigits (by decide) value)
  simp [sampleLine, hname, hvalue]

theorem not_mem_typeLine (type : MetricType) : '\n' ∉ typeLine metric type.text := by
  have hname : '\n' ∉ metric.toList := hmetric.not_mem (by decide)
  cases type <;> simp [typeLine, MetricType.text, hname]

theorem not_mem_sampleLine {separator : List Char} (h : '\n' ∉ separator) (value : Nat) :
    '\n' ∉ sampleLine metric separator value := by
  have hname : '\n' ∉ metric.toList := hmetric.not_mem (by decide)
  have hvalue : '\n' ∉ Nat.toDigits 10 value := not_mem_toDigits (by decide) value
  simp [sampleLine, hname, hvalue, h]

end

/-! ## Lists of samples -/

/-- The lines of a sample as they should be read. -/
def linesOf (lead : String) (sample : Sample) : List Line :=
  let metric := metricName lead sample.metric
  [.type metric sample.type.text, .sample metric [("separator", sample.separator)] sample.value]

/-- What should be recovered of a sample: the metric, the separator and the value. -/
def recovered (lead : String) (sample : Sample) : String × List (String × String) × Nat :=
  (metricName lead sample.metric, [("separator", sample.separator)], sample.value)

theorem filterMap_sample?_linesOf (lead : String) (samples : List Sample) :
    (samples.flatMap (linesOf lead)).filterMap Line.sample? = samples.map (recovered lead) := by
  induction samples with
  | nil => rfl
  | cons sample samples ih =>
    rw [List.flatMap_cons, List.filterMap_append, ih]
    rfl

theorem filterMap_typed?_linesOf (lead : String) (samples : List Sample) :
    (samples.flatMap (linesOf lead)).filterMap Line.typed? =
      samples.map fun sample ↦ metricName lead sample.metric := by
  induction samples with
  | nil => rfl
  | cons sample samples ih =>
    rw [List.flatMap_cons, List.filterMap_append, ih]
    rfl

/-- A name that is written as it is. -/
def Plain (name : String) : Prop := ∀ c ∈ name.toList, IsPlain c

instance : DecidablePred Plain := fun name ↦ List.decidableBAll IsPlain name.toList

theorem type_text_mem (type : MetricType) : type.text ∈ types := by
  cases type <;> decide

section

variable {lead : String}

/-- The first line of the text of a sample is the type of its metric. -/
theorem readLines_sampleText {sample : Sample} (rest : List Char)
    (hmetric : IsWord metricHead (metricName lead sample.metric).toList) :
    let metric := metricName lead sample.metric
    readLines ((sampleText lead sample).toList ++ rest) =
      (readLines (sampleLine metric sample.separator.toList sample.value ++ '\n' :: rest)).map
        (.type metric sample.type.text :: ·) := by
  intro metric
  rw [toList_sampleText, List.append_assoc, List.cons_append, List.append_assoc,
    readLines_append (not_mem_typeLine hmetric _), readLine_typeLine hmetric (type_text_mem _)]
  rfl

theorem readLines_sample {sample : Sample} (rest : List Char)
    (hmetric : IsWord metricHead (metricName lead sample.metric).toList)
    (hplain : Plain sample.separator) :
    readLines ((sampleText lead sample).toList ++ rest) =
      (readLines rest).map (linesOf lead sample ++ ·) := by
  have hescape : escape sample.separator.toList = sample.separator.toList :=
    escape_of_isPlain hplain
  have hfeed : '\n' ∉ sample.separator.toList := fun hmem ↦ (hplain _ hmem).2.2 rfl
  have hread := readLine_sampleLine hmetric sample.separator sample.value
  rw [hescape] at hread
  rw [readLines_sampleText _ hmetric, readLines_append (not_mem_sampleLine hmetric hfeed _), hread,
    Option.bind_some, Option.map_map]
  rfl

theorem readLines_samples {samples : List Sample}
    (hmetrics : ∀ sample ∈ samples, IsWord metricHead (metricName lead sample.metric).toList)
    (hplain : ∀ sample ∈ samples, Plain sample.separator) :
    readLines (samples.flatMap fun sample ↦ (sampleText lead sample).toList) =
      some (samples.flatMap (linesOf lead) ++ [.blank]) := by
  induction samples with
  | nil => rfl
  | cons sample samples ih =>
    obtain ⟨hmetric, hmetrics⟩ := List.forall_mem_cons.mp hmetrics
    obtain ⟨hfirst, hplain⟩ := List.forall_mem_cons.mp hplain
    rw [List.flatMap_cons, readLines_sample _ hmetric hfirst, ih hmetrics hplain,
      List.flatMap_cons, List.append_assoc]
    rfl

/-- The first line of a sample is read as that sample only if the name has nothing to escape. The
line may end within the name, but it has no more backslashes than the name, and the value that is
read has been escaped in it. -/
theorem plain_of_readLines {sample : Sample} {rest : List Char} {lines : List Line}
    {later : List (String × List (String × String) × Nat)}
    (hmetric : IsWord metricHead (metricName lead sample.metric).toList)
    (htext : readLines ((sampleText lead sample).toList ++ rest) = some lines)
    (hlines : lines.filterMap Line.sample? = recovered lead sample :: later) :
    Plain sample.separator := by
  rw [readLines_sampleText _ hmetric] at htext
  obtain ⟨others, hothers, rfl⟩ := Option.map_eq_some_iff.mp htext
  rw [List.filterMap_cons_none rfl] at hlines
  let line := (sampleLine (metricName lead sample.metric) sample.separator.toList
    sample.value).takeWhile (· != '\n')
  obtain ⟨last, hfirst⟩ : ∃ last, _ ++ '\n' :: rest = line ++ '\n' :: last :=
    exists_first_line _ rest
  have hline : '\n' ∉ line := fun hmem ↦ by simpa using List.mem_takeWhile_imp hmem
  rw [hfirst, readLines_append hline] at hothers
  obtain ⟨first, hread, hmap⟩ := Option.bind_eq_some_iff.mp hothers
  obtain ⟨_, -, rfl⟩ := Option.map_eq_some_iff.mp hmap
  have hsplit : ∃ after, line = (metricName lead sample.metric).toList ++ after := by
    have hname : ∀ c ∈ (metricName lead sample.metric).toList, (c != '\n') = true := fun c hc ↦ by
      simpa using ne_of_mem_of_not_mem hc (hmetric.not_mem (by decide))
    exact ⟨_, List.takeWhile_append_of_pos hname⟩
  obtain ⟨after, hafter⟩ := hsplit
  rw [hafter, readLine_append hmetric, ← hafter] at hread
  obtain ⟨metric, labels, value, rfl⟩ := exists_of_readSample hread
  have hsample : (metric, labels, value) = recovered lead sample := (List.cons.inj hlines).1
  cases hsample
  have hinfix : escape sample.separator.toList <:+: line :=
    escape_infix_of_readSample hread ("separator", sample.separator) List.mem_cons_self
  apply isPlain_of_count_escape
  calc (escape sample.separator.toList).count '\\'
    _ ≤ line.count '\\' := hinfix.sublist.count_le _
    _ ≤ (sampleLine _ sample.separator.toList sample.value).count '\\' :=
      (List.takeWhile_sublist _).count_le _
    _ = sample.separator.toList.count '\\' := count_sampleLine hmetric _ _

theorem plain_of_readLines_samples {samples : List Sample} {lines : List Line}
    (hmetrics : ∀ sample ∈ samples, IsWord metricHead (metricName lead sample.metric).toList)
    (htext : readLines (samples.flatMap fun sample ↦ (sampleText lead sample).toList) = some lines)
    (hlines : lines.filterMap Line.sample? = samples.map (recovered lead)) :
    ∀ sample ∈ samples, Plain sample.separator := by
  induction samples generalizing lines with
  | nil => exact List.forall_mem_nil _
  | cons sample samples ih =>
    obtain ⟨hmetric, hmetrics⟩ := List.forall_mem_cons.mp hmetrics
    rw [List.flatMap_cons] at htext
    have hfirst : Plain sample.separator := plain_of_readLines hmetric htext hlines
    rw [readLines_sample _ hmetric hfirst] at htext
    obtain ⟨others, hothers, rfl⟩ := Option.map_eq_some_iff.mp htext
    refine List.forall_mem_cons.mpr ⟨hfirst, ih hmetrics hothers ?_⟩
    rw [List.filterMap_append] at hlines
    exact (List.cons.inj hlines).2

end

/-! ## Snapshots -/

/-- What may stand before the names of metrics: nothing, or the name of a metric. -/
def IsLead (lead : String) : Prop := lead = "" ∨ IsWord metricHead lead.toList

/-- The metrics of a snapshot, the last of which need not be there. -/
def metrics : List String :=
  ["put_calls_total", "get_calls_total", "get_not_found_total", "capacity_errors_total",
    "unimplemented_errors_total", "invariant_errors_total", "hot_key_checks_total",
    "hot_key_hits_total", "hot_keys_calls_total", "resident_keys", "capacity"]

theorem metrics_samples (snapshot : Snapshot) :
    (samples snapshot).map (·.metric) <+: metrics := by
  obtain ⟨name, counters, residentKeys, capacity⟩ := snapshot
  cases capacity with
  | none => exact ⟨["capacity"], rfl⟩
  | some capacity => exact ⟨[], rfl⟩

theorem mem_metrics_samples (snapshot : Snapshot) :
    "put_calls_total" ∈ (samples snapshot).map (·.metric) := List.mem_cons_self

theorem separators_samples (snapshot : Snapshot) : ∃ n, (samples snapshot).map (·.separator) =
    List.replicate (n + 1) snapshot.name := by
  obtain ⟨name, counters, residentKeys, capacity⟩ := snapshot
  cases capacity with
  | none => exact ⟨9, rfl⟩
  | some capacity => exact ⟨10, rfl⟩

theorem IsWord.append {head : Char → Bool} {word rest : List Char} (hword : IsWord head word)
    (hrest : ∀ c ∈ rest, tailOf head c) : IsWord head (word ++ rest) := by
  cases word with
  | nil => cases hword
  | cons c word =>
    refine ⟨hword.1, fun d hd ↦ ?_⟩
    exact (List.mem_append.mp hd).elim (hword.2 d) (hrest d)

theorem isWord_metricName {lead metric : String} (hlead : IsLead lead)
    (hmetric : IsWord metricHead metric.toList) :
    IsWord metricHead (metricName lead metric).toList := by
  unfold metricName
  split_ifs with hempty
  · exact hmetric
  · obtain rfl | hword := hlead
    · exact absurd rfl hempty
    · rw [String.append_assoc, String.toList_append, String.toList_append]
      refine hword.append (List.forall_mem_cons.mpr ⟨by decide, ?_⟩)
      exact hmetric.forall_tailOf

theorem metricName_inj {lead first second : String}
    (h : metricName lead first = metricName lead second) : first = second := by
  unfold metricName at h
  split_ifs at h
  · exact h
  · rw [← String.toList_inj] at h ⊢
    simpa using h

theorem toList_text (lead : String) (snapshots : List Snapshot) : (text lead snapshots).toList =
    (snapshots.flatMap samples).flatMap fun sample ↦ (sampleText lead sample).toList := by
  rw [text, String.toList_join, List.flatMap_map]

section

variable {lead : String} {snapshots : List Snapshot}

theorem isWord_of_mem_samples (hlead : IsLead lead) : ∀ sample ∈ snapshots.flatMap samples,
    IsWord metricHead (metricName lead sample.metric).toList := by
  intro sample hmem
  obtain ⟨snapshot, -, hsample⟩ := List.mem_flatMap.mp hmem
  have hmetric : sample.metric ∈ metrics :=
    (metrics_samples snapshot).subset (List.mem_map_of_mem hsample)
  have hwords : ∀ metric ∈ metrics, IsWord metricHead metric.toList := by decide
  exact isWord_metricName hlead (hwords _ hmetric)

theorem forall_separator_iff : (∀ sample ∈ snapshots.flatMap samples, Plain sample.separator) ↔
    ∀ snapshot ∈ snapshots, Plain snapshot.name := by
  have hname (snapshot : Snapshot) :
      (∀ sample ∈ samples snapshot, Plain sample.separator) ↔ Plain snapshot.name := by
    obtain ⟨n, hseparators⟩ := separators_samples snapshot
    have hmap : (∀ name ∈ (samples snapshot).map (·.separator), Plain name) ↔ _ :=
      List.forall_mem_map
    rw [← hmap, hseparators]
    simp
  rw [List.forall_mem_flatMap]
  exact forall₂_congr fun snapshot _ ↦ hname snapshot

/-- The lines of a text as they should be read. -/
def textLines (lead : String) (snapshots : List Snapshot) : List Line :=
  (snapshots.flatMap samples).flatMap (linesOf lead) ++ [.blank]

theorem read_text (hlead : IsLead lead) (hplain : ∀ snapshot ∈ snapshots, Plain snapshot.name) :
    read (text lead snapshots) = some (textLines lead snapshots) := by
  rw [read, toList_text]
  exact readLines_samples (isWord_of_mem_samples hlead) (forall_separator_iff.mpr hplain)

theorem samples_textLines : (textLines lead snapshots).filterMap Line.sample? =
    (snapshots.flatMap samples).map (recovered lead) := by
  rw [textLines, List.filterMap_append, filterMap_sample?_linesOf]
  exact List.append_nil _

theorem nodup_types_iff : ((textLines lead snapshots).filterMap Line.typed?).Nodup ↔
    snapshots.length ≤ 1 := by
  have htypes : (textLines lead snapshots).filterMap Line.typed? =
      ((snapshots.flatMap samples).map (·.metric)).map (metricName lead) := by
    rw [textLines, List.filterMap_append, filterMap_typed?_linesOf, List.map_map]
    exact List.append_nil _
  rw [htypes, List.nodup_map_iff fun _ _ ↦ metricName_inj]
  match snapshots with
  | [] => simp
  | [snapshot] =>
    refine iff_of_true ?_ (Nat.le_refl 1)
    rw [List.flatMap_singleton]
    exact (metrics_samples snapshot).sublist.nodup (by decide)
  | first :: second :: rest =>
    refine iff_of_false ?_ (by simp)
    rw [List.flatMap_cons, List.flatMap_cons, List.map_append, List.map_append]
    intro hnodup
    have hdisjoint := (List.nodup_append.mp hnodup).2.2
    exact hdisjoint _ (mem_metrics_samples first) _
      (List.mem_append_left _ (mem_metrics_samples second)) rfl

/-- A reader recovers the samples exactly when no name of a separator needs an escape. Besides, no
metric has its type given twice exactly when there is no more than one separator. -/
theorem recovered_iff (hlead : IsLead lead) (snapshots : List Snapshot) :
    let exposed := (snapshots.flatMap samples).map (recovered lead)
    ((∃ lines, read (text lead snapshots) = some lines ∧
        lines.filterMap Line.sample? = exposed) ↔ ∀ snapshot ∈ snapshots, Plain snapshot.name) ∧
      ((∃ lines, read (text lead snapshots) = some lines ∧
          (lines.filterMap Line.typed?).Nodup ∧ lines.filterMap Line.sample? = exposed) ↔
        (∀ snapshot ∈ snapshots, Plain snapshot.name) ∧ snapshots.length ≤ 1) := by
  intro exposed
  have hplain {lines : List Line} (hread : read (text lead snapshots) = some lines)
      (hlines : lines.filterMap Line.sample? = exposed) :
      ∀ snapshot ∈ snapshots, Plain snapshot.name := by
    rw [read, toList_text] at hread
    exact forall_separator_iff.mp
      (plain_of_readLines_samples (isWord_of_mem_samples hlead) hread hlines)
  constructor
  · constructor
    · rintro ⟨lines, hread, hlines⟩
      exact hplain hread hlines
    · intro h
      exact ⟨_, read_text hlead h, samples_textLines⟩
  · constructor
    · rintro ⟨lines, hread, hnodup, hlines⟩
      have h := hplain hread hlines
      cases (read_text hlead h).symm.trans hread
      exact ⟨h, nodup_types_iff.mp hnodup⟩
    · rintro ⟨h, hlength⟩
      exact ⟨_, read_text hlead h, nodup_types_iff.mpr hlength, samples_textLines⟩

end

theorem recovered_iff_lru :
    let snapshots : List Snapshot := [⟨"lru", { putCalls := 4 }, 2, some 8⟩]
    IsLead "heat" ∧ ∃ lines, read (text "heat" snapshots) = some lines ∧
      (lines.filterMap Line.typed?).Nodup ∧
      lines.filterMap Line.sample? = (snapshots.flatMap samples).map (recovered "heat") := by
  intro snapshots
  have hlead : IsLead "heat" := .inr (by decide)
  exact ⟨hlead, (recovered_iff hlead snapshots).2.mpr ⟨by decide, by decide⟩⟩

/-- A quote in a name ends the value of the label early, and two separators give each type twice. -/
theorem not_recovered :
    IsLead "x" ∧ read (text "x" [⟨"a\"b", {}, 0, none⟩]) = none ∧
      ∃ lines, read (text "x" [⟨"a", {}, 0, none⟩, ⟨"b", {}, 0, none⟩]) = some lines ∧
        ¬ (lines.filterMap Line.typed?).Nodup := by
  have hlead : IsLead "x" := .inr (by decide)
  refine ⟨hlead, ?_, textLines "x" _, read_text hlead ?_, ?_⟩
  · let sample : Sample := ⟨.counter, "put_calls_total", "a\"b", 0⟩
    have hmetric : IsWord metricHead (metricName "x" sample.metric).toList := by decide
    have hfeed : '\n' ∉ sample.separator.toList := by decide
    have hline : readLine (sampleLine (metricName "x" sample.metric) sample.separator.toList
        sample.value) = none := by
      decide +kernel
    rw [read, toList_text, List.flatMap_singleton]
    change readLines ((sampleText "x" sample).toList ++ _) = none
    rw [readLines_sampleText _ hmetric, readLines_append (not_mem_sampleLine hmetric hfeed _),
      hline]
    rfl
  · decide
  · rw [nodup_types_iff]
    decide

end KeyHeat.Exposition

import KeyHeat.Proofs.Trace.Forms
import KeyHeat.Proofs.Trace.Keys

/-!
# Traces are read line by line

What a trace yields is what its lines yield, one after the other, however its bytes are divided into
chunks. So what follows a number of whole lines is read as a trace of its own, with the numbers of
its lines counted on. A cursor that reads one line after the other comes upon the same items and
then upon the end.
-/

namespace KeyHeat.TraceReader

/-! ## Lines -/

/-- The lines of a text, each with the newline that ends it. Only the last can be without one. -/
def textLines : Bytes → List Bytes
  | [] => []
  | byte :: rest =>
    if byte = newline then [newline] :: textLines rest
    else match textLines rest with
      | [] => [[byte]]
      | line :: others => (byte :: line) :: others

theorem textLines_append_newline {line : Bytes} (hline : newline ∉ line) (rest : Bytes) :
    textLines (line ++ newline :: rest) = (line ++ [newline]) :: textLines rest := by
  induction line with
  | nil => rw [List.nil_append, textLines, if_pos rfl, List.nil_append]
  | cons byte line ih =>
    rw [List.mem_cons, not_or] at hline
    rw [List.cons_append, textLines, if_neg (Ne.symm hline.1), ih hline.2]
    rfl

theorem textLines_of_no_newline {line : Bytes} (hne : line ≠ []) (hline : newline ∉ line) :
    textLines line = [line] := by
  induction line with
  | nil => exact absurd rfl hne
  | cons byte line ih =>
    rw [List.mem_cons, not_or] at hline
    rw [textLines, if_neg (Ne.symm hline.1)]
    cases line with
    | nil => rfl
    | cons second line => rw [ih (List.cons_ne_nil _ _) hline.2]

/-- A text is nothing, a line without a newline, or a line with one and a text after it. -/
@[elab_as_elim]
theorem lines_induction {motive : Bytes → Prop} (nil : motive [])
    (last : ∀ line, line ≠ [] → newline ∉ line → motive line)
    (cons : ∀ line rest, newline ∉ line → motive rest → motive (line ++ newline :: rest))
    (text : Bytes) : motive text := by
  induction hlength : text.length using Nat.strong_induction_on generalizing text with
  | _ length ih =>
    by_cases hend : newline ∈ text
    · obtain ⟨line, rest, rfl, hline⟩ := List.eq_append_cons_of_mem hend
      refine cons line rest hline (ih rest.length ?_ rest rfl)
      rw [← hlength, List.length_append, List.length_cons]
      omega
    · by_cases hne : text = []
      · exact hne ▸ nil
      · exact last text hne hend

/-- The text is cut after each of its newlines. -/
structure CutAtNewlines (text : Bytes) (lines : List Bytes) : Prop where
  flatten_eq : lines.flatten = text
  ne_nil : ∀ line ∈ lines, line ≠ []
  no_newline : ∀ line ∈ lines, newline ∉ line.dropLast
  ended : ∀ line ∈ lines.dropLast, line.getLast? = some newline

theorem cutAtNewlines_textLines (text : Bytes) : CutAtNewlines text (textLines text) := by
  induction text using lines_induction with
  | nil => exact ⟨rfl, List.forall_mem_nil _, List.forall_mem_nil _, List.forall_mem_nil _⟩
  | last line hne hline =>
    rw [textLines_of_no_newline hne hline]
    exact {
      flatten_eq := List.flatten_singleton
      ne_nil := List.forall_mem_singleton.2 hne
      no_newline := List.forall_mem_singleton.2 fun hmem ↦ hline ((List.dropLast_subset _) hmem)
      ended := List.forall_mem_nil _ }
  | cons line rest hline ih =>
    rw [textLines_append_newline hline]
    exact {
      flatten_eq := by simp [ih.flatten_eq]
      ne_nil := List.forall_mem_cons.2 ⟨by simp, ih.ne_nil⟩
      no_newline := List.forall_mem_cons.2 ⟨by simpa using hline, ih.no_newline⟩
      ended := by
        cases hlines : textLines rest with
        | nil => exact List.forall_mem_nil _
        | cons next others =>
          have hothers := ih.ended
          rw [hlines] at hothers
          exact List.forall_mem_cons.2 ⟨by simp, hothers⟩ }

/-- Nothing at all, or a number of whole lines. -/
def IsWhole (text : Bytes) : Prop := text = [] ∨ text.getLast? = some newline

theorem textLines_append {first : Bytes} (hfirst : IsWhole first) (second : Bytes) :
    textLines (first ++ second) = textLines first ++ textLines second := by
  induction first using lines_induction with
  | nil => rfl
  | last line hne hline =>
    exact absurd (List.mem_of_getLast? (hfirst.resolve_left hne)) hline
  | cons line rest hline ih =>
    have hrest : IsWhole rest := by
      cases rest with
      | nil => exact .inl rfl
      | cons byte rest =>
        right
        simpa [IsWhole] using hfirst
    rw [List.append_assoc, List.cons_append, textLines_append_newline hline,
      textLines_append_newline hline, ih hrest]
    rfl

/-! ## Items -/

/-- The item as it is when there are `count` lines before the first. -/
def later (count : Nat) : TraceItem → TraceItem :=
  Except.mapError fun error ↦ { error with line := error.line + count }

theorem item?_append_newline (number : Nat) (line : Bytes) :
    item? number (line ++ [newline]) = item? number line := by
  have hpadded : TraceLine.Padded line (line ++ [newline]) :=
    ⟨[], [newline], rfl, List.forall_mem_nil _, List.forall_mem_singleton.2 rfl⟩
  unfold item? TraceLine.parse
  rw [TraceLine.trim_of_padded hpadded]

theorem item?_add (number count : Nat) (line : Bytes) :
    item? (number + count) line = (item? number line).map (later count) := by
  unfold item?
  split <;> rfl

theorem lineItems_nil (number : Nat) : lineItems number [] = [] := rfl

theorem lineItems_cons (number : Nat) (line : Bytes) (lines : List Bytes) :
    lineItems number (line :: lines) =
      (item? number line).toList ++ lineItems (number + 1) lines := by
  unfold lineItems
  rw [List.zipIdx_cons, List.filterMap_cons]
  dsimp only
  cases item? number line <;> rfl

theorem lineItems_append (number : Nat) (first second : List Bytes) :
    lineItems number (first ++ second) =
      lineItems number first ++ lineItems (number + first.length) second := by
  rw [lineItems, List.zipIdx_append, List.filterMap_append]
  rfl

theorem lineItems_add (number count : Nat) (lines : List Bytes) :
    lineItems (number + count) lines = (lineItems number lines).map (later count) := by
  induction lines generalizing number with
  | nil => rfl
  | cons line lines ih =>
    rw [lineItems_cons, lineItems_cons, item?_add, Nat.add_right_comm, ih, List.map_append]
    cases item? number line <;> rfl

/-- Newlines at the ends of lines do not matter. -/
theorem lineItems_map_append_newline (number : Nat) (lines : List Bytes) :
    lineItems number (lines.map (· ++ [newline])) = lineItems number lines := by
  induction lines generalizing number with
  | nil => rfl
  | cons line lines ih =>
    rw [List.map_cons, lineItems_cons, lineItems_cons, item?_append_newline, ih]

/-! ## Deliveries -/

theorem collect_of_no_newline {line : Bytes} (hline : newline ∉ line) (lines : List Bytes)
    (start : Bytes) :
    splitLines.collect lines start line = (lines.reverse, start.reverse ++ line) := by
  induction line generalizing start with
  | nil => rw [splitLines.collect, List.append_nil]
  | cons byte line ih =>
    rw [List.mem_cons, not_or] at hline
    rw [splitLines.collect, if_neg (Ne.symm hline.1), ih hline.2, List.reverse_cons,
      List.append_assoc, List.singleton_append]

theorem splitLines_of_no_newline {line : Bytes} (hline : newline ∉ line) :
    splitLines line = ([], line) :=
  collect_of_no_newline hline [] []

theorem collect_eq (lines : List Bytes) (text : Bytes) :
    splitLines.collect lines [] text =
      (lines.reverse ++ (splitLines text).1, (splitLines text).2) := by
  induction text using lines_induction generalizing lines with
  | nil => simp [splitLines, splitLines.collect]
  | last line _ hline =>
    rw [collect_of_no_newline hline, splitLines_of_no_newline hline]
    simp
  | cons line rest hline ih =>
    rw [splitLines, Report.collect_append hline, Report.collect_append hline, ih, ih]
    simp

theorem splitLines_append_newline {line : Bytes} (hline : newline ∉ line) (rest : Bytes) :
    splitLines (line ++ newline :: rest) = (line :: (splitLines rest).1, (splitLines rest).2) := by
  rw [splitLines, Report.collect_append hline, collect_eq]
  rfl

/-- What is split off a text are its first lines, whatever comes after it. -/
theorem textLines_append_of_split (text rest : Bytes) :
    textLines (text ++ rest) =
      (splitLines text).1.map (· ++ [newline]) ++ textLines ((splitLines text).2 ++ rest) := by
  induction text using lines_induction with
  | nil => rfl
  | last line _ hline =>
    rw [splitLines_of_no_newline hline]
    rfl
  | cons line others hline ih =>
    rw [splitLines_append_newline hline, List.append_assoc, List.cons_append,
      textLines_append_newline hline, ih]
    rfl

/-- However the bytes after `pending` are divided, their lines are read one after the other. -/
theorem items_chunks {chunks : List Bytes} (hchunks : ∀ chunk ∈ chunks, chunk ≠ []) {count : Nat}
    {pending : Bytes} (hpending : newline ∉ pending) :
    items count pending (chunks.map .chunk) =
      lineItems (count + 1) (textLines (pending ++ chunks.flatten)) := by
  induction chunks generalizing count pending with
  | nil =>
    rw [List.map_nil, items, List.flatten_nil, List.append_nil]
    split_ifs with hempty
    · rw [List.isEmpty_iff.1 hempty]
      rfl
    · have hne : pending ≠ [] := fun hnil ↦ hempty (List.isEmpty_iff.2 hnil)
      rw [textLines_of_no_newline hne hpending, lineItems_cons, lineItems_nil, List.append_nil]
  | cons chunk chunks ih =>
    obtain ⟨hchunk, hrest⟩ := List.forall_mem_cons.1 hchunks
    have htail := (splitLines_no_newline (pending ++ chunk)).2
    rw [List.map_cons, items, if_neg (by simpa using hchunk), List.flatten_cons,
      ← List.append_assoc, textLines_append_of_split, lineItems_append,
      lineItems_map_append_newline, List.length_map, Nat.add_right_comm, ← ih hrest htail]

theorem ofDeliveries_chunks {chunks : List Bytes} (hchunks : ∀ chunk ∈ chunks, chunk ≠ []) :
    ofDeliveries (chunks.map .chunk) = lineItems 1 (textLines chunks.flatten) :=
  items_chunks hchunks List.not_mem_nil

theorem ofBytes_eq (bytes : Bytes) : ofBytes bytes = lineItems 1 (textLines bytes) := by
  cases bytes with
  | nil => rfl
  | cons byte rest =>
    have hitems := ofDeliveries_chunks (List.forall_mem_singleton.2 (List.cons_ne_nil byte rest))
    rwa [List.flatten_singleton] at hitems

theorem ofBytes_append {first : Bytes} (hfirst : IsWhole first) (second : Bytes) :
    ofBytes (first ++ second) =
      ofBytes first ++ (ofBytes second).map (later (textLines first).length) := by
  simp only [ofBytes_eq, textLines_append hfirst, lineItems_append, lineItems_add]

/-! ## Cursors -/

/-- A trace that is being read: the number of lines that have been read, and the bytes that have
not. -/
structure Cursor where
  count : Nat
  rest : Bytes

/-- The bytes up to the first newline, with it, and the bytes after it. -/
def readLine : Bytes → Bytes × Bytes
  | [] => ([], [])
  | byte :: rest =>
    if byte = newline then ([newline], rest)
    else (byte :: (readLine rest).1, (readLine rest).2)

theorem length_readLine {text : Bytes} (hne : text ≠ []) :
    (readLine text).2.length < text.length := by
  induction text with
  | nil => exact absurd rfl hne
  | cons byte rest ih =>
    rw [readLine, List.length_cons]
    split_ifs
    · exact Nat.lt_succ_self _
    · cases rest with
      | nil => exact Nat.succ_pos _
      | cons second rest => exact (ih (List.cons_ne_nil _ _)).trans (Nat.lt_succ_self _)

theorem readLine_append_newline {line : Bytes} (hline : newline ∉ line) (rest : Bytes) :
    readLine (line ++ newline :: rest) = (line ++ [newline], rest) := by
  induction line with
  | nil => rw [List.nil_append, readLine, if_pos rfl, List.nil_append]
  | cons byte line ih =>
    rw [List.mem_cons, not_or] at hline
    rw [List.cons_append, readLine, if_neg (Ne.symm hline.1), ih hline.2]
    rfl

theorem readLine_of_no_newline {line : Bytes} (hline : newline ∉ line) :
    readLine line = (line, []) := by
  induction line with
  | nil => rfl
  | cons byte line ih =>
    rw [List.mem_cons, not_or] at hline
    rw [readLine, if_neg (Ne.symm hline.1), ih hline.2]

namespace Cursor

/-- Reads on to the next line that yields something. -/
def next? (cursor : Cursor) : Option (TraceItem × Cursor) :=
  if cursor.rest = [] then none
  else
    let line := (readLine cursor.rest).1
    let after : Cursor := ⟨cursor.count + 1, (readLine cursor.rest).2⟩
    match item? after.count line with
    | some item => some (item, after)
    | none => after.next?
termination_by cursor.rest.length
decreasing_by
  exact length_readLine ‹_›

/-- A cursor comes upon these items, one after the other, and then upon the end. -/
inductive Yields : Cursor → List TraceItem → Prop
  | done {cursor : Cursor} (hend : cursor.next? = none) : Yields cursor []
  | next {cursor after : Cursor} {item : TraceItem} {items : List TraceItem}
      (hnext : cursor.next? = some (item, after)) (hrest : Yields after items) :
      Yields cursor (item :: items)

theorem Yields.congr {cursor other : Cursor} {items : List TraceItem} (h : Yields other items)
    (hnext : cursor.next? = other.next?) : Yields cursor items := by
  cases h with
  | done hend => exact .done (hnext.trans hend)
  | next hother hrest => exact .next (hnext.trans hother) hrest

/-- One line is read, and what it yields comes before all else. -/
theorem Yields.line {count : Nat} {text line rest : Bytes} {items : List TraceItem}
    (h : Yields ⟨count + 1, rest⟩ items) (hne : text ≠ []) (hread : readLine text = (line, rest)) :
    Yields ⟨count, text⟩ ((item? (count + 1) line).toList ++ items) := by
  have hnext : next? ⟨count, text⟩ = match item? (count + 1) line with
      | some item => some (item, ⟨count + 1, rest⟩)
      | none => next? ⟨count + 1, rest⟩ := by
    rw [next?, if_neg hne, hread]
  cases hitem : item? (count + 1) line with
  | none =>
    rw [hitem] at hnext
    exact h.congr hnext
  | some item =>
    rw [hitem] at hnext
    exact .next hnext h

theorem yields_lineItems (count : Nat) (text : Bytes) :
    Yields ⟨count, text⟩ (lineItems (count + 1) (textLines text)) := by
  induction text using lines_induction generalizing count with
  | nil => exact .done (by rw [next?, if_pos rfl])
  | last line hne hline =>
    have hend : Yields ⟨count + 1, []⟩ [] := .done (by rw [next?, if_pos rfl])
    rw [textLines_of_no_newline hne hline, lineItems_cons]
    exact hend.line hne (readLine_of_no_newline hline)
  | cons line rest hline ih =>
    rw [textLines_append_newline hline, lineItems_cons]
    exact (ih (count + 1)).line (by simp) (readLine_append_newline hline rest)

end Cursor

/-- A trace is read line by line. It yields what its lines yield, whatever the chunks are that it
comes in, and a cursor comes upon just that before the end. What follows whole lines is read as if
it were alone, with these lines counted before it. -/
theorem composes :
    (∀ text, CutAtNewlines text (textLines text)) ∧
    (∀ bytes, ofBytes bytes = lineItems 1 (textLines bytes)) ∧
    (∀ chunks : List Bytes, (∀ chunk ∈ chunks, chunk ≠ []) →
      ofDeliveries (chunks.map .chunk) = ofBytes chunks.flatten) ∧
    (∀ bytes, Cursor.Yields ⟨0, bytes⟩ (ofBytes bytes)) ∧
    ∀ first second, IsWhole first →
      ofBytes (first ++ second) =
        ofBytes first ++ (ofBytes second).map (later (textLines first).length) := by
  refine ⟨cutAtNewlines_textLines, ofBytes_eq, ?_, ?_, ?_⟩
  · intro chunks hchunks
    rw [ofDeliveries_chunks hchunks, ofBytes_eq]
  · intro bytes
    rw [ofBytes_eq]
    exact Cursor.yields_lineItems 0 bytes
  · intro first second hfirst
    exact ofBytes_append hfirst second

/-- The first text has a blank line at its end, which counts for the error in the second. -/
theorem composes_two :
    let first : Bytes := "get,a\n \n".toUTF8.toList
    let second : Bytes := "b\nput,c".toUTF8.toList
    IsWhole first ∧ first ≠ [] ∧ second ≠ [] ∧
      ofBytes second = [.error ⟨1, .line (.fieldCount 1)⟩, .ok (.put [99])] ∧
      ofDeliveries [.chunk first, .chunk second] =
        [.ok (.get [97]), .error ⟨3, .line (.fieldCount 1)⟩, .ok (.put [99])] := by
  intro first second
  have hfirst : IsWhole first := .inr (by decide +kernel)
  have hne : first ≠ [] ∧ second ≠ [] := by decide +kernel
  have hitems : ofBytes first = [.ok (.get [97])] := by decide +kernel
  have hothers : ofBytes second = [.error ⟨1, .line (.fieldCount 1)⟩, .ok (.put [99])] := by
    decide +kernel
  have hlines : (textLines first).length = 2 := by decide +kernel
  obtain ⟨-, -, hchunks, -, happend⟩ := composes
  refine ⟨hfirst, hne.1, hne.2, hothers, ?_⟩
  calc
    ofDeliveries [.chunk first, .chunk second] = ofBytes (first ++ second) := by
      simpa using hchunks [first, second] (by simp [hne])
    _ = ofBytes first ++ (ofBytes second).map (later 2) := hlines ▸ happend first second hfirst
    _ = _ := by
      rw [hitems, hothers]
      rfl

end KeyHeat.TraceReader

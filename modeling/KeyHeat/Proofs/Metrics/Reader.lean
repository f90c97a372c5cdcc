import KeyHeat.Metrics.Exposition
import Mathlib.Data.List.Basic
import Mathlib.Data.List.TakeWhile

/-!
# A reader of metrics as text

The text form as the readers of it see it, apart from the samples that are written here. A text is
cut into lines: empty lines, comments, types of metrics, and samples, which have a metric, labels in
braces and a value. In the value of a label, a backslash stands before every quote and backslash,
and a line feed is written with a letter. The form also allows more blanks in a line, times after
values, and values that are not whole; nothing like that is written here, and it is left out.
-/

namespace KeyHeat.Exposition

inductive Line where
  /-- An empty line or a comment. -/
  | blank
  | type (metric type : String)
  | sample (metric : String) (labels : List (String × String)) (value : Nat)
  deriving DecidableEq

def Line.typed? : Line → Option String
  | type metric _ => some metric
  | _ => none

def Line.sample? : Line → Option (String × List (String × String) × Nat)
  | sample metric labels value => some (metric, labels, value)
  | _ => none

/-! ## Words -/

def labelHead (c : Char) : Bool := c.isAlpha || c == '_'

def metricHead (c : Char) : Bool := labelHead c || c == ':'

section

variable (head : Char → Bool)

def tailOf (c : Char) : Bool := head c || c.isDigit

/-- A name: one of the characters that may stand first, and then these or digits. -/
def IsWord : List Char → Prop
  | [] => False
  | c :: cs => head c ∧ ∀ d ∈ cs, tailOf head d

-- The instance for lists is named, as the one for a finite type would go through all characters.
instance : DecidablePred (IsWord head)
  | [] => .isFalse id
  | _ :: cs => @instDecidableAnd _ _ _ (List.decidableBAll _ cs)

/-- The name at the start of a text, and what follows it. -/
def readWord (cs : List Char) : Option (List Char × List Char) :=
  match cs.takeWhile (tailOf head) with
  | [] => none
  | c :: word => if head c then some (c :: word, cs.dropWhile (tailOf head)) else none

variable {head} {cs word rest : List Char}

theorem IsWord.forall_tailOf (h : IsWord head word) : ∀ c ∈ word, tailOf head c := by
  cases word with
  | nil => cases h
  | cons c word =>
    refine List.forall_mem_cons.mpr ⟨?_, h.2⟩
    rw [tailOf, h.1, Bool.true_or]

theorem readWord_append {c : Char} (hword : IsWord head word) (hc : ¬ tailOf head c) :
    readWord head (word ++ c :: rest) = some (word, c :: rest) := by
  have htake : (word ++ c :: rest).takeWhile (tailOf head) = word := by
    rw [List.takeWhile_append_of_pos hword.forall_tailOf, List.takeWhile_cons_of_neg hc,
      List.append_nil]
  have hdrop : (word ++ c :: rest).dropWhile (tailOf head) = c :: rest := by
    rw [List.dropWhile_append_of_pos hword.forall_tailOf, List.dropWhile_cons_of_neg hc]
  rw [readWord, htake, hdrop]
  cases word with
  | nil => cases hword
  | cons first word => exact if_pos hword.1

theorem eq_append_of_readWord (h : readWord head cs = some (word, rest)) :
    cs = word ++ rest ∧ IsWord head word := by
  unfold readWord at h
  split at h
  · cases h
  · rename_i c tail htake
    split_ifs at h with hhead
    cases h
    refine ⟨?_, hhead, fun d hd ↦ ?_⟩
    · rw [← htake, List.takeWhile_append_dropWhile]
    · exact List.mem_takeWhile_imp (htake ▸ List.mem_cons_of_mem c hd)

end

/-! ## Values of labels -/

/-- A character is written as it is in the value of a label. -/
def IsPlain (c : Char) : Prop := c ≠ '\\' ∧ c ≠ '"' ∧ c ≠ '\n'

instance : DecidablePred IsPlain := fun _ ↦ inferInstanceAs (Decidable (_ ∧ _))

def escapeChar : Char → List Char
  | '\\' => ['\\', '\\']
  | '"' => ['\\', '"']
  | '\n' => ['\\', 'n']
  | c => [c]

def escape (value : List Char) : List Char := value.flatMap escapeChar

/-- The value of a label up to the quote that ends it, and what follows the quote. -/
def readValue : List Char → Option (List Char × List Char)
  | '"' :: rest => some ([], rest)
  | '\\' :: '\\' :: rest => (readValue rest).map (Prod.map ('\\' :: ·) id)
  | '\\' :: '"' :: rest => (readValue rest).map (Prod.map ('"' :: ·) id)
  | '\\' :: 'n' :: rest => (readValue rest).map (Prod.map ('\n' :: ·) id)
  | '\\' :: _ => none
  | '\n' :: _ => none
  | c :: rest => (readValue rest).map (Prod.map (c :: ·) id)
  | [] => none

theorem escape_cons (c : Char) (value : List Char) :
    escape (c :: value) = escapeChar c ++ escape value := rfl

theorem escapeChar_of_isPlain {c : Char} (h : IsPlain c) : escapeChar c = [c] := by
  obtain ⟨hbackslash, hquote, hfeed⟩ := h
  rw [escapeChar]
  all_goals assumption

theorem readValue_of_isPlain {c : Char} (h : IsPlain c) (cs : List Char) :
    readValue (c :: cs) = (readValue cs).map (Prod.map (c :: ·) id) := by
  obtain ⟨hbackslash, hquote, hfeed⟩ := h
  rw [readValue]
  all_goals simp [hbackslash, hquote, hfeed]

theorem isPlain_or (c : Char) : IsPlain c ∨ c = '\\' ∨ c = '"' ∨ c = '\n' := by
  unfold IsPlain
  tauto

theorem readValue_escapeChar (c : Char) (cs : List Char) :
    readValue (escapeChar c ++ cs) = (readValue cs).map (Prod.map (c :: ·) id) := by
  obtain h | rfl | rfl | rfl := isPlain_or c
  · rw [escapeChar_of_isPlain h, List.singleton_append, readValue_of_isPlain h]
  · rfl
  · rfl
  · rfl

theorem eq_escape_of_map {c : Char} {cs value rest : List Char}
    (ih : ∀ v, readValue cs = some (v, rest) → cs = escape v ++ '"' :: rest)
    (h : (readValue cs).map (Prod.map (c :: ·) id) = some (value, rest)) :
    escapeChar c ++ cs = escape value ++ '"' :: rest := by
  obtain ⟨⟨v, r⟩, hread, heq⟩ := Option.map_eq_some_iff.mp h
  obtain ⟨rfl, rfl⟩ := Prod.mk.inj heq
  rw [escape_cons, List.append_assoc, ← ih v hread]

/-- What is read is what has been escaped. -/
theorem readValue_eq_some_iff {cs value rest : List Char} :
    readValue cs = some (value, rest) ↔ cs = escape value ++ '"' :: rest := by
  constructor
  · intro h
    fun_induction readValue cs generalizing value with
    | case1 =>
      cases h
      rfl
    | case2 cs ih | case3 cs ih | case4 cs ih => exact eq_escape_of_map (fun _ ↦ ih) h
    | case5 | case6 => cases h
    | case7 c cs hquote _ _ _ hbackslash hfeed ih =>
      have hplain : IsPlain c := ⟨hbackslash, hquote, hfeed⟩
      rw [← List.singleton_append, ← escapeChar_of_isPlain hplain]
      exact eq_escape_of_map (fun _ ↦ ih) h
    | case8 => cases h
  · rintro rfl
    induction value with
    | nil => rfl
    | cons c value ih =>
      rw [escape_cons, List.append_assoc, readValue_escapeChar, ih]
      rfl

/-! ## Lines -/

/-- The labels up to the brace that ends them, and what follows the brace. Every label takes up a
character, so `fuel` may be the number of characters. -/
def readLabels : Nat → List Char → Option (List (String × String) × List Char)
  | 0, _ => none
  | fuel + 1, cs => do
    let (label, rest) ← readWord labelHead cs
    let quoted ← rest.dropPrefix? ['=', '"']
    let (value, rest) ← readValue quoted
    let first := (String.ofList label, String.ofList value)
    match rest with
    | '\x7d' :: rest => pure ([first], rest)
    | ',' :: rest => (readLabels fuel rest).map (Prod.map (first :: ·) id)
    | _ => none

def readBraces : List Char → Option (List (String × String) × List Char)
  | '\x7b' :: rest => readLabels rest.length rest
  | rest => some ([], rest)

def readNumber (cs : List Char) : Option Nat :=
  if cs ≠ [] ∧ cs.all Char.isDigit then some (Nat.ofDigitChars 10 cs 0) else none

def readSample (cs : List Char) : Option Line := do
  let (metric, rest) ← readWord metricHead cs
  let (labels, rest) ← readBraces rest
  let digits ← rest.dropPrefix? [' ']
  let value ← readNumber digits
  pure (.sample (String.ofList metric) labels value)

def types : List String := ["counter", "gauge", "histogram", "summary", "untyped"]

def readType (cs : List Char) : Option Line := do
  let (metric, rest) ← readWord metricHead cs
  let type ← rest.dropPrefix? [' ']
  if String.ofList type ∈ types then some (.type (String.ofList metric) (String.ofList type))
  else none

def readLine : List Char → Option Line
  | [] => some .blank
  | '#' :: comment =>
    match comment.dropPrefix? " TYPE ".toList with
    | some rest => readType rest
    | none => some .blank
  | cs => readSample cs

def readLines (cs : List Char) : Option (List Line) := (cs.splitOn '\n').mapM readLine

/-- The lines of a text, if all of them can be read. -/
def read (text : String) : Option (List Line) := readLines text.toList

theorem dropPrefix?_eq_some_iff_append {cs first rest : List Char} :
    cs.dropPrefix? first = some rest ↔ cs = first ++ rest := by
  simp [List.dropPrefix?_eq_some_iff]

theorem readNumber_toDigits (n : Nat) : readNumber (Nat.toDigits 10 n) = some n := by
  have hdigits : (Nat.toDigits 10 n).all Char.isDigit := by
    rw [List.all_eq_true]
    exact fun c hc ↦ Nat.isDigit_of_mem_toDigits (by decide) (by decide) hc
  rw [readNumber, if_pos ⟨Nat.toDigits_ne_nil, hdigits⟩, Nat.ofDigitChars_ten_toDigits]

theorem escape_infix_of_readLabels {fuel : Nat} {cs rest : List Char}
    {labels : List (String × String)} (h : readLabels fuel cs = some (labels, rest)) :
    ∀ label ∈ labels, escape label.2.toList <:+: cs := by
  induction fuel generalizing cs labels with
  | zero => cases h
  | succ fuel ih =>
    simp only [readLabels, Option.bind_eq_bind, Option.bind_eq_some_iff, Prod.exists] at h
    obtain ⟨label, afterLabel, hlabel, quoted, hquoted, value, afterValue, hvalue, h⟩ := h
    obtain ⟨rfl, -⟩ := eq_append_of_readWord hlabel
    obtain rfl := dropPrefix?_eq_some_iff_append.mp hquoted
    obtain rfl := readValue_eq_some_iff.mp hvalue
    have hfirst : escape value <:+:
        label ++ (['=', '"'] ++ (escape value ++ '"' :: afterValue)) :=
      ⟨label ++ ['=', '"'], '"' :: afterValue, by simp⟩
    split at h
    · cases h
      simpa using hfirst
    · rename_i others
      obtain ⟨⟨later, last⟩, hlater, heq⟩ := Option.map_eq_some_iff.mp h
      cases heq
      have hothers : others <:+: label ++ (['=', '"'] ++ (escape value ++ '"' :: ',' :: others)) :=
        ⟨label ++ ['=', '"'] ++ escape value ++ ['"', ','], [], by simp⟩
      refine List.forall_mem_cons.mpr ⟨by simpa using hfirst, fun label hmem ↦ ?_⟩
      exact (ih hlater label hmem).trans hothers
    · cases h

theorem escape_infix_of_readSample {cs : List Char} {metric : String}
    {labels : List (String × String)} {value : Nat}
    (h : readSample cs = some (.sample metric labels value)) :
    ∀ label ∈ labels, escape label.2.toList <:+: cs := by
  simp only [readSample, Option.bind_eq_bind, Option.bind_eq_some_iff, Prod.exists] at h
  obtain ⟨name, afterName, hname, read, afterLabels, hlabels, digits, -, n, -, h⟩ := h
  cases h
  obtain ⟨rfl, -⟩ := eq_append_of_readWord hname
  unfold readBraces at hlabels
  split at hlabels
  · rename_i rest
    have hrest : rest <:+: name ++ '\x7b' :: rest := ⟨name ++ ['\x7b'], [], by simp⟩
    exact fun label hmem ↦ (escape_infix_of_readLabels hlabels label hmem).trans hrest
  · cases hlabels
    exact List.forall_mem_nil _

theorem exists_of_readSample {cs : List Char} {line : Line} (h : readSample cs = some line) :
    ∃ metric labels value, line = .sample metric labels value := by
  simp only [readSample, Option.bind_eq_bind, Option.bind_eq_some_iff, Prod.exists] at h
  obtain ⟨name, -, -, labels, -, -, -, -, value, -, h⟩ := h
  cases h
  exact ⟨_, _, _, rfl⟩

/-! ## Lines that are written -/

/-- A line with the type of a metric. -/
def typeLine (metric type : String) : List Char :=
  '#' :: (" TYPE ".toList ++ (metric.toList ++ ' ' :: type.toList))

/-- A line with a sample of a metric for a separator, whose name is written as given. -/
def sampleLine (metric : String) (separator : List Char) (value : Nat) : List Char :=
  metric.toList ++ '\x7b' :: ("separator".toList ++ (['=', '"'] ++
    (separator ++ '"' :: '\x7d' :: ' ' :: Nat.toDigits 10 value)))

theorem readLabels_separator (separator rest : List Char) (fuel : Nat) :
    readLabels (fuel + 1) ("separator".toList ++ (['=', '"'] ++
      (escape separator ++ '"' :: '\x7d' :: rest))) =
      some ([("separator", String.ofList separator)], rest) := by
  have hword : IsWord labelHead "separator".toList := by decide
  simp only [readLabels, Option.bind_eq_bind, Option.bind_eq_some_iff, Prod.exists]
  exact ⟨_, _, readWord_append hword (by decide), _, dropPrefix?_eq_some_iff_append.mpr rfl,
    _, _, readValue_eq_some_iff.mpr rfl, rfl⟩

section

variable {metric : String} (hmetric : IsWord metricHead metric.toList)

include hmetric

theorem readLine_typeLine {type : String} (htype : type ∈ types) :
    readLine (typeLine metric type) = some (.type metric type) := by
  have hread : readType (metric.toList ++ ' ' :: type.toList) = some (.type metric type) := by
    have hblank : (' ' :: type.toList).dropPrefix? [' '] = some type.toList :=
      dropPrefix?_eq_some_iff_append.mpr rfl
    simp only [readType, Option.bind_eq_bind, Option.bind_eq_some_iff, Prod.exists]
    refine ⟨_, _, readWord_append hmetric (by decide), _, hblank, ?_⟩
    rw [String.ofList_toList, String.ofList_toList, if_pos htype]
  rw [typeLine, readLine, dropPrefix?_eq_some_iff_append.mpr rfl]
  exact hread

/-- A line that starts with a metric is read as a sample. -/
theorem readLine_append (rest : List Char) :
    readLine (metric.toList ++ rest) = readSample (metric.toList ++ rest) := by
  cases hlist : metric.toList with
  | nil =>
    rw [hlist] at hmetric
    cases hmetric
  | cons c cs =>
    rw [hlist] at hmetric
    have hc : c ≠ '#' := by
      rintro rfl
      exact absurd hmetric.1 (by decide)
    rw [List.cons_append, readLine]
    · exact nofun
    · rintro comment h
      exact hc (List.cons.inj h).1

/-- A name that is written with escapes is read back, whatever it is. -/
theorem readLine_sampleLine (separator : String) (value : Nat) :
    readLine (sampleLine metric (escape separator.toList) value) =
      some (.sample metric [("separator", separator)] value) := by
  rw [sampleLine, readLine_append hmetric]
  simp only [readSample, Option.bind_eq_bind, Option.bind_eq_some_iff, Prod.exists]
  refine ⟨_, _, readWord_append hmetric (by decide), _, _, readLabels_separator _ _ _, _,
    dropPrefix?_eq_some_iff_append.mpr rfl, _, readNumber_toDigits value, ?_⟩
  rw [String.ofList_toList, String.ofList_toList]
  rfl

end

end KeyHeat.Exposition

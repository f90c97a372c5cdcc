import KeyHeat.Trace.Line
import Mathlib.Data.List.DropRight
import Mathlib.Data.List.Forall2

/-!
# The two forms of a line

A line that is neither blank nor a comment is read as an access if it is in one of the two forms and
has a key, and only then. Blanks around a line are blanks around its first and its last field, and
they do not count. So what is written in one of the forms, with blanks anywhere around its fields,
is read back as the same access, unless it is a comment.
-/

namespace KeyHeat.TraceLine

/-! ## Blanks -/

/-- The content with nothing but blanks around it. -/
def Padded (content padded : Bytes) : Prop :=
  ∃ before after : Bytes, padded = before ++ content ++ after ∧
    (∀ byte ∈ before, isBlank byte) ∧ ∀ byte ∈ after, isBlank byte

/-- There is no blank at either end. -/
structure IsTrimmed (bytes : Bytes) : Prop where
  head : ∀ byte ∈ bytes.head?, ¬ isBlank byte
  last : ∀ byte ∈ bytes.getLast?, ¬ isBlank byte

theorem padded_trim (bytes : Bytes) : Padded (trim bytes) bytes := by
  let rest := bytes.dropWhile isBlank
  refine ⟨bytes.takeWhile isBlank, rest.rtakeWhile isBlank, ?_, ?_, ?_⟩
  · have hrest : trim bytes ++ rest.rtakeWhile isBlank = rest :=
      List.rdropWhile_append_rtakeWhile ..
    rw [List.append_assoc, hrest]
    exact List.takeWhile_append_dropWhile.symm
  · exact fun byte ↦ List.mem_takeWhile_imp
  · exact fun byte ↦ List.mem_rtakeWhile_imp

theorem isTrimmed_trim (bytes : Bytes) : IsTrimmed (trim bytes) where
  head := by
    intro byte hhead
    obtain ⟨others, heq⟩ := List.head?_eq_some_iff.1 hhead
    obtain ⟨after, hafter⟩ : trim bytes <+: bytes.dropWhile isBlank := List.rdropWhile_prefix ..
    have hfirst := List.head?_dropWhile_not isBlank bytes
    rw [← hafter, heq] at hfirst
    simpa using hfirst
  last := by
    intro byte hlast
    obtain ⟨hne, rfl⟩ := List.mem_getLast?_eq_getLast hlast
    exact List.rdropWhile_last_not _ _ hne

theorem trim_of_padded {content padded : Bytes} (h : Padded content padded) :
    trim padded = trim content := by
  obtain ⟨before, after, rfl, hbefore, hafter⟩ := h
  have hleft : (before ++ content ++ after).dropWhile isBlank =
      (content ++ after).dropWhile isBlank := by
    rw [List.append_assoc, List.dropWhile_append_of_pos hbefore]
  have hright (bytes : Bytes) : (bytes ++ after).rdropWhile isBlank = bytes.rdropWhile isBlank := by
    rw [List.rdropWhile, List.reverse_append, List.dropWhile_append_of_pos (by simpa using hafter)]
    rfl
  calc
    _ = ((content ++ after).dropWhile isBlank).rdropWhile isBlank := by rw [← hleft]; rfl
    _ = (content.dropWhile isBlank).rdropWhile isBlank := by
      rw [List.dropWhile_append]
      split_ifs with hempty
      · rw [List.dropWhile_eq_nil_iff.2 hafter, List.isEmpty_iff.1 hempty]
      · exact hright _
    _ = _ := rfl

theorem IsTrimmed.trim_eq {bytes : Bytes} (h : IsTrimmed bytes) : trim bytes = bytes := by
  have hleft : bytes.dropWhile isBlank = bytes := by
    cases bytes with
    | nil => rfl
    | cons byte rest => exact List.dropWhile_cons_of_neg (h.head byte rfl)
  have hright : bytes.rdropWhile isBlank = bytes := by
    rw [List.rdropWhile_eq_self_iff]
    exact fun hne ↦ h.last _ (List.getLast_mem_getLast? hne)
  rw [trim, hleft]
  exact hright

/-- To trim bytes is to take off the blanks around them. -/
theorem trim_eq_iff {bytes content : Bytes} :
    trim bytes = content ↔ Padded content bytes ∧ IsTrimmed content := by
  constructor
  · rintro rfl
    exact ⟨padded_trim bytes, isTrimmed_trim bytes⟩
  · rintro ⟨hpadded, htrimmed⟩
    rw [trim_of_padded hpadded, htrimmed.trim_eq]

/-! ## Fields -/

theorem splitOn_cons (byte : UInt8) (rest : Bytes) :
    (byte :: rest).splitOn comma =
      if byte = comma then [] :: rest.splitOn comma
      else (rest.splitOn comma).modifyHead (byte :: ·) := by
  simp only [List.splitOn_eq_splitOnP, List.splitOnP_cons_eq_if_modifyHead, beq_iff_eq]

theorem splitOn_of_no_comma {bytes : Bytes} (h : comma ∉ bytes) :
    bytes.splitOn comma = [bytes] := by
  have hsplit : ([comma].intercalate [bytes]).splitOn comma = [bytes] :=
    List.splitOn_intercalate comma (by simpa using h) (List.cons_ne_nil _ _)
  rwa [List.intercalate_singleton] at hsplit

theorem fields_eq_splitOn (bytes : Bytes) : fields bytes = bytes.splitOn comma := by
  induction bytes with
  | nil => rfl
  | cons byte rest ih =>
    have hne : rest.splitOn comma ≠ [] := List.splitOnP_ne_nil _ rest
    obtain ⟨first, others, heq⟩ := List.exists_cons_of_ne_nil hne
    rw [fields, splitOn_cons, ih, heq]
    rfl

theorem forall₂_modifyHead {α β : Type} {R : α → β → Prop} {f : α → α} {g : β → β}
    (hhead : ∀ a b, R a b → R (f a) (g b)) {first : List α} {second : List β}
    (h : List.Forall₂ R first second) :
    List.Forall₂ R (first.modifyHead f) (second.modifyHead g) := by
  cases h with
  | nil => exact .nil
  | cons hab hrest => exact .cons (hhead _ _ hab) hrest

theorem no_comma_of_blanks {bytes : Bytes} (h : ∀ byte ∈ bytes, isBlank byte) : comma ∉ bytes :=
  fun hmem ↦ absurd (h comma hmem) (by decide)

theorem forall₂_splitOn_append (content : Bytes) {after : Bytes}
    (hafter : ∀ byte ∈ after, isBlank byte) :
    List.Forall₂
      (fun first second ↦ ∃ blanks, second = first ++ blanks ∧ ∀ byte ∈ blanks, isBlank byte)
      (content.splitOn comma) ((content ++ after).splitOn comma) := by
  induction content with
  | nil =>
    rw [List.nil_append, splitOn_of_no_comma (no_comma_of_blanks hafter)]
    exact .cons ⟨after, rfl, hafter⟩ .nil
  | cons byte rest ih =>
    rw [List.cons_append, splitOn_cons, splitOn_cons]
    split_ifs
    · exact .cons ⟨[], rfl, List.forall_mem_nil _⟩ ih
    · apply forall₂_modifyHead _ ih
      rintro first _ ⟨blanks, rfl, hblanks⟩
      exact ⟨blanks, rfl, hblanks⟩

/-- Blanks around a line are blanks before its first and after its last field. -/
theorem Padded.splitOn {content line : Bytes} (h : Padded content line) :
    List.Forall₂ Padded (content.splitOn comma) (line.splitOn comma) := by
  obtain ⟨before, after, rfl, hbefore, hafter⟩ := h
  rw [List.append_assoc]
  induction before with
  | nil =>
    apply (forall₂_splitOn_append content hafter).imp
    rintro first _ ⟨blanks, rfl, hblanks⟩
    exact ⟨[], blanks, rfl, List.forall_mem_nil _, hblanks⟩
  | cons byte before ih =>
    obtain ⟨hbyte, hrest⟩ := List.forall_mem_cons.1 hbefore
    have hne : byte ≠ comma := fun heq ↦ no_comma_of_blanks hbefore (heq ▸ List.mem_cons_self)
    have hid : (content.splitOn comma).modifyHead id = content.splitOn comma := by simp
    rw [List.cons_append, splitOn_cons, if_neg hne, ← hid]
    apply forall₂_modifyHead _ (ih hrest)
    rintro first _ ⟨blanks, others, rfl, hblanks, hothers⟩
    exact ⟨byte :: blanks, others, rfl, List.forall_mem_cons.2 ⟨hbyte, hblanks⟩, hothers⟩

/-! ## Operations -/

/-- Blanks around it and the case of its letters apart, the operation is this word. -/
def Spells (operation : Bytes) (word : String) : Prop :=
  (trim operation).map (fun byte ↦ (Char.ofUInt8 byte).toLower) = word.toList

/-- An operation field asks for this kind of access. -/
def Asks (operation : Bytes) : TraceOp → Prop
  | .get _ => Spells operation "get" ∨ Spells operation "gets"
  | .put _ => ¬ Spells operation "get" ∧ ¬ Spells operation "gets" ∧ ¬ Spells operation "delete"
  | .delete _ => Spells operation "delete"

theorem ofUInt8_injective : Function.Injective Char.ofUInt8 := by
  intro a b h
  exact UInt8.toUInt32_inj.1 (congrArg Char.val h)

theorem ofUInt8_lowerCase (byte : UInt8) :
    Char.ofUInt8 (lowerCase byte) = (Char.ofUInt8 byte).toLower := by
  have h : ∀ n < 256, Char.ofUInt8 (lowerCase (UInt8.ofNat n)) =
      (Char.ofUInt8 (UInt8.ofNat n)).toLower := by
    decide +kernel
  simpa using h byte.toNat byte.toNat_lt

theorem spells_iff {operation word : Bytes} {text : String}
    (hword : word.map Char.ofUInt8 = text.toList) :
    Spells operation text ↔ (trim operation).map lowerCase = word := by
  rw [Spells, ← hword, ← (List.map_injective_iff.2 ofUInt8_injective).eq_iff, List.map_map]
  simp only [Function.comp_def, ofUInt8_lowerCase]

theorem access_eq_iff {operation key : Bytes} {op : TraceOp} :
    access operation key = op ↔ op.key = key ∧ Asks operation op := by
  have hget : Spells operation "get" ↔ (trim operation).map lowerCase = getWord :=
    spells_iff (by decide +kernel)
  have hgets : Spells operation "gets" ↔ (trim operation).map lowerCase = getsWord :=
    spells_iff (by decide +kernel)
  have hdelete : Spells operation "delete" ↔ (trim operation).map lowerCase = deleteWord :=
    spells_iff (by decide +kernel)
  have hne : getWord ≠ deleteWord ∧ getsWord ≠ deleteWord := by decide +kernel
  unfold access
  cases op <;> simp only [Asks, hget, hgets, hdelete, TraceOp.key] <;> split_ifs <;> grind

/-! ## Forms -/

/-- The fields of a line in one of the two forms, with this operation and this key. -/
inductive Form (operation key : Bytes) : List Bytes → Prop
  | short : Form operation key [operation, key]
  | long (time keySize valueSize client expiry : Bytes) :
      Form operation key [time, key, keySize, valueSize, client, operation, expiry]

theorem exists_form_iff {fields : List Bytes} :
    (∃ operation key, Form operation key fields) ↔ fields.length = 2 ∨ fields.length = 7 := by
  constructor
  · rintro ⟨operation, key, hform⟩
    cases hform with
    | short => exact .inl rfl
    | long => exact .inr rfl
  · intro hlength
    match fields, hlength with
    | [operation, key], _ => exact ⟨operation, key, .short⟩
    | [_, key, _, _, _, operation, _], _ => exact ⟨operation, key, .long ..⟩

/-- A comment is a line that begins with `#` once the blanks around it are taken off. -/
def IsComment (line : Bytes) : Prop := (trim line).head? = some hash

instance : DecidablePred IsComment := fun _ ↦ inferInstanceAs (Decidable (_ = _))

/-- A line that says nothing is blank or a comment. -/
def Silent (line : Bytes) : Prop := trim line = [] ∨ IsComment line

/-- What a line says, by its bytes without the blanks around them: nothing if there are none or if
they are a comment, else the access of their fields if these are in one of the two forms and have a
key. The other lines cannot be read. -/
inductive Says (line : Bytes) : Except LineProblem (Option TraceOp) → Prop
  | nothing (hsilent : Silent line) : Says line (.ok none)
  | access (hspeaks : ¬ Silent line) {operation key : Bytes} {op : TraceOp}
      (hform : Form operation key ((trim line).splitOn comma)) (hne : trim key ≠ [])
      (hkey : op.key = trim key) (hasks : Asks operation op) : Says line (.ok (some op))
  | emptyKey (hspeaks : ¬ Silent line) {operation key : Bytes}
      (hform : Form operation key ((trim line).splitOn comma)) (hnil : trim key = []) :
      Says line (.error .emptyKey)
  | fieldCount (hspeaks : ¬ Silent line) {count : Nat}
      (hcount : ((trim line).splitOn comma).length = count) (htwo : count ≠ 2)
      (hseven : count ≠ 7) : Says line (.error (.fieldCount count))

/-! ## Lines -/

section

variable {line operation key : Bytes}

theorem parse_of_silent (h : Silent line) : parse line = .ok none := by
  unfold parse
  rw [if_pos (by simpa [Silent, IsComment] using h)]

theorem parse_of_form (h : ¬ Silent line)
    (hform : Form operation key ((trim line).splitOn comma)) :
    parse line = if trim key = [] then .error .emptyKey
      else .ok (some (access operation (trim key))) := by
  unfold parse
  rw [if_neg (by simpa [Silent, IsComment] using h), fields_eq_splitOn]
  generalize (trim line).splitOn comma = fields at hform
  have hfields : (ofFields operation key).map some = if trim key = [] then .error .emptyKey
      else .ok (some (access operation (trim key))) := by
    simp only [ofFields, List.isEmpty_iff]
    split_ifs <;> rfl
  cases hform <;> exact hfields

theorem parse_of_length (h : ¬ Silent line) (htwo : ((trim line).splitOn comma).length ≠ 2)
    (hseven : ((trim line).splitOn comma).length ≠ 7) :
    parse line = .error (.fieldCount ((trim line).splitOn comma).length) := by
  unfold parse
  rw [if_neg (by simpa [Silent, IsComment] using h), fields_eq_splitOn]
  split
  · simp_all
  · simp_all
  · rfl

end

theorem says_parse (line : Bytes) : Says line (parse line) := by
  by_cases hsilent : Silent line
  · rw [parse_of_silent hsilent]
    exact .nothing hsilent
  · by_cases hform : ∃ operation key, Form operation key ((trim line).splitOn comma)
    · obtain ⟨operation, key, hform⟩ := hform
      rw [parse_of_form hsilent hform]
      split_ifs with hkey
      · exact .emptyKey hsilent hform hkey
      · obtain ⟨hop, hasks⟩ := access_eq_iff.1 (rfl : access operation (trim key) = _)
        exact .access hsilent hform hkey hop hasks
    · rw [exists_form_iff, not_or] at hform
      rw [parse_of_length hsilent hform.1 hform.2]
      exact .fieldCount hsilent rfl hform.1 hform.2

theorem parse_eq_iff {line : Bytes} {result : Except LineProblem (Option TraceOp)} :
    parse line = result ↔ Says line result := by
  constructor
  · rintro rfl
    exact says_parse line
  · intro h
    cases h with
    | nothing hsilent => exact parse_of_silent hsilent
    | access hspeaks hform hne hkey hasks =>
      rw [parse_of_form hspeaks hform, if_neg hne, access_eq_iff.2 ⟨hkey, hasks⟩]
    | emptyKey hspeaks hform hnil => rw [parse_of_form hspeaks hform, if_pos hnil]
    | fieldCount hspeaks hcount htwo hseven =>
      subst hcount
      exact parse_of_length hspeaks htwo hseven

/-! ## Blanks around fields -/

theorem no_comma_of_padded {fields padded : List Bytes} (h : List.Forall₂ Padded fields padded)
    (hfields : ∀ field ∈ fields, comma ∉ field) : ∀ field ∈ padded, comma ∉ field := by
  induction h with
  | nil => exact List.forall_mem_nil _
  | cons hpadded _ ih =>
    obtain ⟨hfield, hrest⟩ := List.forall_mem_cons.1 hfields
    obtain ⟨before, after, rfl, hbefore, hafter⟩ := hpadded
    refine List.forall_mem_cons.2 ⟨?_, ih hrest⟩
    simp [hfield, no_comma_of_blanks hbefore, no_comma_of_blanks hafter]

theorem map_trim_of_padded {fields padded : List Bytes} (h : List.Forall₂ Padded fields padded) :
    padded.map trim = fields.map trim := by
  induction h with
  | nil => rfl
  | cons hpadded _ ih => rw [List.map_cons, List.map_cons, trim_of_padded hpadded, ih]

/-- Blanks around the fields of a line do not change its form. -/
theorem Form.of_map_trim {operation key : Bytes} {fields others : List Bytes}
    (hform : Form operation key fields) (h : others.map trim = fields.map trim) :
    ∃ operation' key', Form operation' key' others ∧ trim operation' = trim operation ∧
      trim key' = trim key := by
  have hlength : others.length = fields.length := by simpa using congrArg List.length h
  obtain ⟨operation', key', hother⟩ :=
    exists_form_iff.2 (hlength ▸ exists_form_iff.1 ⟨operation, key, hform⟩)
  refine ⟨operation', key', hother, ?_⟩
  cases hform <;> cases hother <;> simp_all

/-- What is written in one of the forms is read back, blanks around its fields apart. -/
theorem parse_intercalate {operation key : Bytes} {fields padded : List Bytes}
    (hform : Form operation key fields) (hcommas : ∀ field ∈ fields, comma ∉ field)
    (hne : key ≠ []) (htrimmed : IsTrimmed key) (hpadded : List.Forall₂ Padded fields padded) :
    parse ([comma].intercalate padded) =
      if IsComment ([comma].intercalate padded) then .ok none
      else .ok (some (access operation key)) := by
  have hlength := exists_form_iff.1 ⟨operation, key, hform⟩
  have hnil : padded ≠ [] := by
    rintro rfl
    cases hpadded
    simp at hlength
  have hsplit : ([comma].intercalate padded).splitOn comma = padded :=
    List.splitOn_intercalate comma (no_comma_of_padded hpadded hcommas) hnil
  generalize [comma].intercalate padded = line at hsplit
  have hfields := (padded_trim line).splitOn
  rw [hsplit] at hfields
  obtain ⟨operation', key', hform', hoperation, hkey⟩ :=
    hform.of_map_trim ((map_trim_of_padded hfields).symm.trans (map_trim_of_padded hpadded))
  have hblank : trim line ≠ [] := by
    intro hblank
    rw [hblank] at hform'
    exact absurd (exists_form_iff.1 ⟨operation', key', hform'⟩) (by simp)
  rw [htrimmed.trim_eq] at hkey
  split_ifs with hcomment
  · exact parse_of_silent (.inr hcomment)
  · have hspeaks : ¬ Silent line := not_or.2 ⟨hblank, hcomment⟩
    rw [parse_of_form hspeaks hform', hkey, if_neg hne, access, access, hoperation]

/-- A line is read as what it says, and what is written in one of the forms, with a key that can be
told from what is around it and with blanks anywhere around the fields, is read back as the same
access unless it is a comment. -/
theorem reads_forms :
    (∀ bytes content, trim bytes = content ↔ Padded content bytes ∧ IsTrimmed content) ∧
    (∀ line result, parse line = result ↔ Says line result) ∧
    ∀ (operation key : Bytes) (fields padded : List Bytes), Form operation key fields →
      (∀ field ∈ fields, comma ∉ field) → key ≠ [] → IsTrimmed key →
      List.Forall₂ Padded fields padded →
      ∃ op : TraceOp, op.key = key ∧ Asks operation op ∧
        parse ([comma].intercalate padded) =
          if IsComment ([comma].intercalate padded) then .ok none else .ok (some op) := by
  refine ⟨fun bytes content ↦ trim_eq_iff, fun line result ↦ parse_eq_iff, ?_⟩
  intro operation key fields padded hform hcommas hne htrimmed hpadded
  obtain ⟨hkey, hasks⟩ := access_eq_iff.1 (rfl : access operation key = _)
  exact ⟨_, hkey, hasks, parse_intercalate hform hcommas hne htrimmed hpadded⟩

/-- The key of this line is not text, and it holds a blank, a `#` and a quote. -/
theorem reads_forms_raw :
    let key : Bytes := [0xff, 0x20, 0x23, 0x22]
    let operation : Bytes := "gEtS".toUTF8.toList
    let fields : List Bytes := [[0x37], key, [], [0x31], [], operation, [0x30]]
    let padded : List Bytes :=
      [[0x20, 0x37], 0x09 :: key, [], [0x31], [0x0a], operation ++ [0x20], [0x30, 0x0d, 0x0a]]
    Form operation key fields ∧ (∀ field ∈ fields, comma ∉ field) ∧ key ≠ [] ∧ IsTrimmed key ∧
      List.Forall₂ Padded fields padded ∧ Asks operation (.get key) ∧
      parse ([comma].intercalate padded) = .ok (some (.get key)) := by
  intro key operation fields padded
  have hform : Form operation key fields := .long ..
  have hcommas : ∀ field ∈ fields, comma ∉ field := by decide +kernel
  have htrimmed : IsTrimmed key := (trim_eq_iff.1 (by decide : trim key = key)).2
  have pad (before content after : Bytes) (h : (before ++ after).all isBlank) :
      Padded content (before ++ content ++ after) :=
    ⟨before, after, rfl, List.forall_mem_append.1 (List.all_eq_true.1 h)⟩
  have hpadded : List.Forall₂ Padded fields padded :=
    .cons (pad [0x20] _ [] rfl) <| .cons (pad [0x09] _ [] rfl) <| .cons (pad [] _ [] rfl) <|
      .cons (pad [] _ [] rfl) <| .cons (pad [0x0a] _ [] rfl) <| .cons (pad [] _ [0x20] rfl) <|
      .cons (pad [] _ [0x0d, 0x0a] rfl) .nil
  have hasks : Asks operation (.get key) :=
    .inr (by decide +kernel : (trim operation).map _ = "gets".toList)
  obtain ⟨op, hkey, hop, hparse⟩ :=
    reads_forms.2.2 operation key fields padded hform hcommas (by decide) htrimmed hpadded
  have heq : op = .get key :=
    (access_eq_iff.2 ⟨hkey, hop⟩).symm.trans (access_eq_iff.2 ⟨rfl, hasks⟩)
  rw [if_neg (by decide +kernel), heq] at hparse
  exact ⟨hform, hcommas, by decide, htrimmed, hpadded, hasks, hparse⟩

/-- This line has an operation and a key, and it begins with a blank. It is a comment all the same,
since the blank is taken off before the `#` is looked for. -/
theorem parse_indented_hash :
    let operation : Bytes := "#put".toUTF8.toList
    let key : Bytes := "k".toUTF8.toList
    let fields : List Bytes := [operation, key]
    let padded : List Bytes := [0x20 :: operation, key]
    Form operation key fields ∧ (∀ field ∈ fields, comma ∉ field) ∧ key ≠ [] ∧ IsTrimmed key ∧
      List.Forall₂ Padded fields padded ∧ Asks operation (.put key) ∧
      ([comma].intercalate padded).head? ≠ some hash ∧
      parse ([comma].intercalate padded) ≠ .ok (some (.put key)) ∧
      parse ([comma].intercalate padded) = .ok none := by
  intro operation key fields padded
  have htrimmed : IsTrimmed key := (trim_eq_iff.1 (by decide +kernel : trim key = key)).2
  have hpadded : List.Forall₂ Padded fields padded :=
    .cons ⟨[0x20], [], by simp, List.forall_mem_singleton.2 rfl, List.forall_mem_nil _⟩ <|
      .cons ⟨[], [], by simp, List.forall_mem_nil _, List.forall_mem_nil _⟩ .nil
  have hasks : Asks operation (.put key) :=
    (access_eq_iff.1 (by decide +kernel : access operation key = .put key)).2
  have hparse : parse ([comma].intercalate padded) = .ok none :=
    parse_of_silent (.inr (by decide +kernel))
  refine ⟨.short, by decide +kernel, by decide +kernel, htrimmed, hpadded, hasks,
    by decide +kernel, ?_, hparse⟩
  rw [hparse]
  exact fun heq ↦ nomatch heq

end KeyHeat.TraceLine

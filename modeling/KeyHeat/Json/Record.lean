import KeyHeat.Json.Reader

/-!
# Reading typed JSON

Readers for values whose type is known: whole numbers, doubles, strings, optional values, lists
and records. A record is written as an object, whose unknown members are skipped, or as an array
of its fields in order. Where a value of another type stands, that value is read far enough to
name it.
-/

namespace KeyHeat.JsonReader

def mismatch {α : Type} (what : JsonMismatch) : Except JsonFault α := .error (.mismatch what)

/-- What kind of value stands at the front of the text. -/
def found (cs : List Char) : Except JsonFault JsonFound :=
  match cs with
  | 'n' :: rest => (literal "ull" rest).map fun _ ↦ .null
  | 't' :: rest => (literal "rue" rest).map fun _ ↦ .bool true
  | 'f' :: rest => (literal "alse" rest).map fun _ ↦ .bool false
  | '"' :: rest => (stringTail rest).map fun (s, _) ↦ .string s
  | '[' :: _ => .ok .sequence
  | '\x7b' :: _ => .ok .map
  | cs => (number cs).map fun (n, _) ↦ .number n

/-- Refuses the value at the front of the text. -/
def unexpected {α : Type} (expected : String) (cs : List Char) : Except JsonFault α := do
  mismatch (.wrongType (← found cs) expected)

def startsNumber : List Char → Bool
  | c :: _ => c == '-' || isDigit c
  | [] => false

/-! ## Scalars -/

/-- A whole number that is not negative. -/
def natural (cs : List Char) : Except JsonFault (Nat × Rest) := do
  let cs := skipBlanks cs
  if startsNumber cs then
    match ← number cs with
    | (.natural n, rest) => pure (n, rest)
    | (.negative n, _) => mismatch (.wrongValue (.negative n) "u64")
    | (.double x, _) => mismatch (.wrongType (.number (.double x)) "u64")
  else
    unexpected "u64" cs

def float (cs : List Char) : Except JsonFault (Float × Rest) := do
  let cs := skipBlanks cs
  if startsNumber cs then
    let (n, rest) ← number cs
    pure (n.toFloat, rest)
  else
    unexpected "f64" cs

def string (cs : List Char) : Except JsonFault (String × Rest) :=
  match skipBlanks cs with
  | '"' :: rest => stringTail rest
  | cs => unexpected "a string" cs

/-- Either `null` or what `read` reads. -/
def optional {α : Type} (read : List Char → Except JsonFault (α × Rest)) (cs : List Char) :
    Except JsonFault (Option α × Rest) :=
  match skipBlanks cs with
  | 'n' :: rest => (literal "ull" rest).map (none, ·)
  | cs => (read cs).map fun (a, rest) ↦ (some a, rest)

/-! ## Lists -/

/-- The elements of an array whose bracket has been taken. -/
def elements {α : Type} (read : List Char → Except JsonFault (α × Rest)) (limits : Limits)
    (cs : List Char) : Except JsonFault (List α × Rest) :=
  collect true [] cs limits.steps
where
  collect (first : Bool) (done : List α) (cs : List Char) : Nat → Except JsonFault (List α × Rest)
    | 0 => malformed
    | fuel + 1 => do
      match ← nextElement? first cs with
      | none => pure (done.reverse, cs)
      | some cs =>
        let (a, rest) ← read cs
        collect false (a :: done) rest fuel

/-- A list, whose elements are read with one level of nesting less. -/
def listOf {α : Type} (read : Limits → List Char → Except JsonFault (α × Rest))
    (limits : Limits) (cs : List Char) : Except JsonFault (List α × Rest) :=
  match skipBlanks cs, limits with
  | '[' :: _, ⟨0, _⟩ => malformed
  | '[' :: rest, ⟨depth + 1, steps⟩ => do
    let (list, rest) ← elements (read ⟨depth, steps⟩) ⟨depth, steps⟩ rest
    pure (list, ← expect ']' rest)
  | cs, _ => unexpected "a sequence" cs

/-! ## Records -/

/-- What a known member does to the fields read so far, given the text of its value. -/
abbrev FieldReader (σ : Type) := List Char → Except JsonFault (σ × Rest)

/-- The members of an object whose brace has been taken. Of a name, `member` says what reads its
value; members of other names are skipped. -/
def members {σ : Type} (member : σ → String → Except JsonFault (Option (FieldReader σ)))
    (start : σ) (limits : Limits) (cs : List Char) : Except JsonFault (σ × Rest) :=
  collect true start cs limits.steps
where
  collect (first : Bool) (fields : σ) (cs : List Char) : Nat → Except JsonFault (σ × Rest)
    | 0 => malformed
    | fuel + 1 => do
      match ← nextName? first cs with
      | none => pure (fields, cs)
      | some (name, rest) =>
        match ← member fields name with
        | some read =>
          let (fields, rest) ← read (← expect ':' rest)
          collect false fields rest fuel
        | none => collect false fields (← skipValue limits (← expect ':' rest)) fuel

/-- The reader of a field that must not have been read before. -/
def onlyOnce {σ α : Type} (name : String) (old : Option α)
    (read : List Char → Except JsonFault (α × Rest)) (store : α → σ) :
    Except JsonFault (Option (FieldReader σ)) :=
  match old with
  | some _ => mismatch (.duplicateField name)
  | none => pure (some fun cs ↦ (read cs).map fun (a, rest) ↦ (store a, rest))

/-- A field that must have been read. -/
def present {α : Type} (name : String) : Option α → Except JsonFault α
  | some a => pure a
  | none => mismatch (.missingField name)

/-- The field at position `index` of the array form of a record, which must be there. -/
def required {α : Type} (index : Nat) (expected : String)
    (read : List Char → Except JsonFault (α × Rest)) (cs : List Char) :
    Except JsonFault (α × Rest) := do
  match ← nextElement? (index == 0) cs with
  | some cs => read cs
  | none => mismatch (.wrongLength index expected)

/-- A field of the array form of a record that may be left out at the end, though never all of
them. -/
def trailing {α : Type} (byDefault : α) (read : List Char → Except JsonFault (α × Rest))
    (cs : List Char) : Except JsonFault (α × Rest) := do
  match ← nextElement? false cs with
  | some cs => read cs
  | none => pure (byDefault, cs)

/-- A record in either form, whose fields are read with one level of nesting less. The readers
of the forms find the opening character taken and leave the closing one. -/
def record {ρ : Type} (expected : String)
    (ofArray ofObject : Limits → List Char → Except JsonFault (ρ × Rest)) (limits : Limits)
    (cs : List Char) : Except JsonFault (ρ × Rest) :=
  match skipBlanks cs, limits with
  | '[' :: _, ⟨0, _⟩ | '\x7b' :: _, ⟨0, _⟩ => malformed
  | '[' :: rest, ⟨depth + 1, steps⟩ => do
    let (r, rest) ← ofArray ⟨depth, steps⟩ rest
    pure (r, ← expect ']' rest)
  | '\x7b' :: rest, ⟨depth + 1, steps⟩ => do
    let (r, rest) ← ofObject ⟨depth, steps⟩ rest
    pure (r, ← expect '\x7d' rest)
  | cs, _ => unexpected expected cs

end KeyHeat.JsonReader

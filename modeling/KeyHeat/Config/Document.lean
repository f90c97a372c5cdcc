import KeyHeat.Json.Record

/-!
# Configuration documents

A configuration as it is written: a number of operations, the portion of the keys that counts as
hot, and a list of entries with a type each. What the parameters of an entry must be depends on
its type, so they are kept as they stand.
-/

namespace KeyHeat

structure ConfigEntry where
  type : String
  name : Option String
  params : JsonValue

structure ConfigDocument where
  operationCount : Nat
  hotKeyPortion : Float
  entries : List ConfigEntry

namespace ConfigEntry

open JsonReader

/-- The members of an entry that have been read. -/
structure Fields where
  type : Option String := none
  name : Option (Option String) := none
  params : Option JsonValue := none

def member (limits : Limits) (fields : Fields) :
    String → Except JsonFault (Option (FieldReader Fields))
  | "type" => onlyOnce "type" fields.type string fun type ↦ { fields with type := some type }
  | "name" =>
    onlyOnce "name" fields.name (optional string) fun name ↦ { fields with name := some name }
  | "params" =>
    onlyOnce "params" fields.params (value limits) fun params ↦
      { fields with params := some params }
  | _ => pure none

def ofObject (limits : Limits) (cs : List Char) : Except JsonFault (ConfigEntry × Rest) := do
  let (fields, rest) ← members (member limits) {} limits cs
  let type ← present "type" fields.type
  pure (⟨type, fields.name.getD none, fields.params.getD .null⟩, rest)

def ofArray (limits : Limits) (cs : List Char) : Except JsonFault (ConfigEntry × Rest) := do
  let (type, rest) ← required 0 "struct RawSeparator with 3 elements" string cs
  let (name, rest) ← trailing none (optional string) rest
  let (params, rest) ← trailing .null (value limits) rest
  pure (⟨type, name, params⟩, rest)

def read (limits : Limits) : List Char → Except JsonFault (ConfigEntry × Rest) :=
  record "struct RawSeparator" ofArray ofObject limits

end ConfigEntry

namespace ConfigDocument

open JsonReader

/-- The members of a document that have been read. -/
structure Fields where
  operationCount : Option Nat := none
  hotKeyPortion : Option Float := none
  entries : Option (List ConfigEntry) := none

def member (limits : Limits) (fields : Fields) :
    String → Except JsonFault (Option (FieldReader Fields))
  | "operationcount" =>
    onlyOnce "operationcount" fields.operationCount natural fun count ↦
      { fields with operationCount := some count }
  | "hot_key_portion" =>
    onlyOnce "hot_key_portion" fields.hotKeyPortion float fun portion ↦
      { fields with hotKeyPortion := some portion }
  | "heat_separators" =>
    onlyOnce "heat_separators" fields.entries (listOf ConfigEntry.read limits) fun entries ↦
      { fields with entries := some entries }
  | _ => pure none

def ofObject (limits : Limits) (cs : List Char) : Except JsonFault (ConfigDocument × Rest) := do
  let (fields, rest) ← members (member limits) {} limits cs
  let operationCount ← present "operationcount" fields.operationCount
  let hotKeyPortion ← present "hot_key_portion" fields.hotKeyPortion
  pure (⟨operationCount, hotKeyPortion, fields.entries.getD []⟩, rest)

def ofArray (limits : Limits) (cs : List Char) : Except JsonFault (ConfigDocument × Rest) := do
  let expected := "struct RawConfig with 3 elements"
  let (operationCount, rest) ← required 0 expected natural cs
  let (hotKeyPortion, rest) ← required 1 expected float rest
  let (entries, rest) ← trailing [] (listOf ConfigEntry.read limits) rest
  pure (⟨operationCount, hotKeyPortion, entries⟩, rest)

/-- The document that a text holds. -/
def ofText (text : String) : Except JsonFault ConfigDocument :=
  whole (record "struct RawConfig" ofArray ofObject) text

end ConfigDocument

end KeyHeat

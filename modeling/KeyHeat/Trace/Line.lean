import KeyHeat.Key

/-!
# Trace lines

A trace is a sequence of lines, one access each, in either of two forms: two fields, operation and
key, or seven fields with the key second and the operation sixth. Fields are separated by commas,
and blanks around them do not count. Blank lines and lines that begin with `#` say nothing. Keys
are byte strings and taken as they are.
-/

namespace KeyHeat

/-- One access of a trace. A deletion only concerns the exact counts. -/
inductive TraceOp where
  | get (key : Bytes)
  | put (key : Bytes)
  | delete (key : Bytes)
  deriving DecidableEq, Repr

def TraceOp.key : TraceOp → Bytes
  | get key | put key | delete key => key

/-- Why a line cannot be read as an access. -/
inductive LineProblem where
  | fieldCount (count : Nat)
  | emptyKey
  deriving DecidableEq, Repr

def LineProblem.message : LineProblem → String
  | fieldCount count => s!"expected 2 or 7 comma-separated fields, got {count}"
  | emptyKey => "empty key"

namespace TraceLine

/-! ## Bytes -/

/-- Space, tab, line feed, form feed and carriage return. -/
def isBlank (byte : UInt8) : Bool :=
  byte == 0x20 || byte == 0x09 || byte == 0x0a || byte == 0x0c || byte == 0x0d

/-- The bytes without blanks at either end. -/
def trim (bytes : Bytes) : Bytes :=
  ((bytes.dropWhile isBlank).reverse.dropWhile isBlank).reverse

def comma : UInt8 := 0x2c

def hash : UInt8 := 0x23

/-- The parts between commas; one more than there are commas. -/
def fields : Bytes → List Bytes
  | [] => [[]]
  | byte :: rest =>
    if byte = comma then [] :: fields rest
    else match fields rest with
      | first :: others => (byte :: first) :: others
      | [] => [[byte]]

/-- The ASCII capital letters as small ones. -/
def lowerCase (byte : UInt8) : UInt8 :=
  if 0x41 ≤ byte ∧ byte ≤ 0x5a then byte + 0x20 else byte

/-! ## Accesses -/

/-- The word for a read. -/
def getWord : Bytes := "get".toUTF8.toList

def getsWord : Bytes := "gets".toUTF8.toList

def deleteWord : Bytes := "delete".toUTF8.toList

/-- The access that an operation field and a trimmed key stand for. Case does not matter, and
every operation that neither reads nor deletes is a write. -/
def access (operation key : Bytes) : TraceOp :=
  let word := (trim operation).map lowerCase
  if word = getWord ∨ word = getsWord then .get key
  else if word = deleteWord then .delete key
  else .put key

def ofFields (operation key : Bytes) : Except LineProblem TraceOp :=
  let key := trim key
  if key.isEmpty then .error .emptyKey else .ok (access operation key)

/-- The access of a line, or none if the line is blank or a comment. -/
def parse (line : Bytes) : Except LineProblem (Option TraceOp) :=
  let line := trim line
  if line.isEmpty ∨ line.head? = some hash then
    .ok none
  else
    match fields line with
    | [operation, key] => (ofFields operation key).map some
    | [_, key, _, _, _, operation, _] => (ofFields operation key).map some
    | other => .error (.fieldCount other.length)

end TraceLine

end KeyHeat

import KeyHeat.Key

/-!
# The output directory

A directory that holds files and no other directories. A path is looked up in it part by part, and
every part but the last has to be a directory: hence a file is written only under a name that is
one part. What is wrong with another name is the first thing that the lookup meets.
-/

namespace KeyHeat

/-- Why a file cannot be written. -/
inductive WriteError where
  | nulInPath
  | nameTooLong
  | noDirectory
  | notDirectory
  deriving DecidableEq, Repr

def WriteError.message : WriteError → String
  | nulInPath => "file name contained an unexpected NUL byte"
  | nameTooLong => "File name too long (os error 36)"
  | noDirectory => "No such file or directory (os error 2)"
  | notDirectory => "Not a directory (os error 20)"

/-- The directory at a path, with its files by name. -/
structure Directory where
  path : String
  files : List (String × Bytes)

namespace Directory

/-- The bytes that a part of a path has at most. -/
def longestPart : Nat := 255

/-- The bytes that a path has at most. -/
def longestPath : Nat := 4095

def empty (path : String) : Directory := ⟨path, []⟩

def get? (directory : Directory) (name : String) : Option Bytes := directory.files.lookup name

/-- The path of a file in the directory. -/
def pathOf (directory : Directory) (name : String) : String := directory.path ++ "/" ++ name

/-- The part of a path before its first slash. -/
def firstPart (path : String) : String := String.ofList (path.toList.takeWhile (· ≠ '/'))

/-- Why no file of the given name can be written, if so. -/
def refusal? (directory : Directory) (name : String) : Option WriteError :=
  let first := firstPart name
  if '\x00' ∈ name.toList then some .nulInPath
  else if longestPath < (directory.pathOf name).utf8ByteSize then some .nameTooLong
  else if longestPart < first.utf8ByteSize then some .nameTooLong
  else if first = name then none
  else if (directory.get? first).isSome then some .notDirectory
  else some .noDirectory

/-- Puts a file under a name, in place of an earlier one of that name. -/
def put (files : List (String × Bytes)) (name : String) (content : Bytes) :
    List (String × Bytes) :=
  match files with
  | [] => [(name, content)]
  | (other, old) :: rest =>
    if other = name then (name, content) :: rest else (other, old) :: put rest name content

/-- Writes a file, in place of an earlier one of that name. -/
def write (directory : Directory) (name : String) (content : Bytes) :
    Except WriteError Directory :=
  match directory.refusal? name with
  | some error => .error error
  | none => .ok { directory with files := put directory.files name content }

/-- Writes files in order, up to the first that cannot be written. -/
def writeAll (directory : Directory) :
    List (String × Bytes) → Directory × Except WriteError Unit
  | [] => (directory, .ok ())
  | (name, content) :: rest =>
    match directory.write name content with
    | .error error => (directory, .error error)
    | .ok directory => directory.writeAll rest

end Directory

end KeyHeat

import KeyHeat.Trace.Line

/-!
# Reading traces

A trace arrives in deliveries: chunks of bytes that may end anywhere in a line, and failed reads.
Every line is counted, also those that say nothing, and an error carries the number of its line.
A failed read counts as a line and takes the bytes of the line that it interrupts with it. An
empty chunk ends the line that it comes in, and the trace if it comes between lines.
-/

namespace KeyHeat

/-- Why a line yields no access. -/
inductive TraceProblem where
  | line (problem : LineProblem)
  | unreadable (reason : String)
  deriving DecidableEq, Repr

def TraceProblem.message : TraceProblem → String
  | line problem => problem.message
  | unreadable reason => reason

structure TraceError where
  /-- The number of the line, from one. -/
  line : Nat
  problem : TraceProblem
  deriving DecidableEq, Repr

def TraceError.message (error : TraceError) : String :=
  s!"trace line {error.line}: {error.problem.message}"

/-- What a trace yields for a line. -/
abbrev TraceItem := Except TraceError TraceOp

inductive Delivery where
  | chunk (bytes : Bytes)
  | failure (reason : String)
  deriving DecidableEq, Repr

namespace TraceReader

def newline : UInt8 := 0x0a

/-- The lines that a newline ends, without it, and the bytes after the last newline. -/
def splitLines (bytes : Bytes) : List Bytes × Bytes :=
  collect [] [] bytes
where
  collect (lines : List Bytes) (line : Bytes) : Bytes → List Bytes × Bytes
    | [] => (lines.reverse, line.reverse)
    | byte :: rest =>
      if byte = newline then collect (line.reverse :: lines) [] rest
      else collect lines (byte :: line) rest

/-- What the line of the given number yields, if anything. -/
def item? (number : Nat) (line : Bytes) : Option TraceItem :=
  match TraceLine.parse line with
  | .ok none => none
  | .ok (some op) => some (.ok op)
  | .error problem => some (.error ⟨number, .line problem⟩)

/-- What consecutive lines yield, the first of them having the given number. -/
def lineItems (number : Nat) (lines : List Bytes) : List TraceItem :=
  (lines.zipIdx number).filterMap fun (line, number) ↦ item? number line

/-- What the deliveries yield after `count` lines and the bytes `pending` of the next. -/
def items (count : Nat) (pending : Bytes) : List Delivery → List TraceItem
  | [] => if pending.isEmpty then [] else (item? (count + 1) pending).toList
  | .failure reason :: rest =>
    .error ⟨count + 1, .unreadable reason⟩ :: items (count + 1) [] rest
  | .chunk bytes :: rest =>
    if bytes.isEmpty then
      if pending.isEmpty then []
      else (item? (count + 1) pending).toList ++ items (count + 1) [] rest
    else
      let (lines, tail) := splitLines (pending ++ bytes)
      lineItems (count + 1) lines ++ items (count + lines.length) tail rest

/-- What the deliveries of a trace yield, in order. -/
def ofDeliveries (deliveries : List Delivery) : List TraceItem := items 0 [] deliveries

/-- What the bytes of a trace yield, in order. -/
def ofBytes (bytes : Bytes) : List TraceItem := ofDeliveries [.chunk bytes]

end TraceReader

end KeyHeat

import KeyHeat.Container.LinkedList
import KeyHeat.Error
import KeyHeat.Key
import KeyHeat.Number.Convert
import Std.Data.HashMap

/-!
# Low inter-reference recency

Keys are ranked by how many others are accessed between two accesses of theirs. Keys of short
reuse distance have LIR status and are hot. The others are HIR: the separator gives room to a few
of them, and remembers some that have lost theirs.

Three linked lists hold the keys. The stack orders keys by their last access and ends in a LIR key.
The queue holds the resident HIR keys; the last of it is the next to lose residency. The ghost
list holds the keys that are remembered only. A HIR key that is accessed while it is in the stack
has shown a short reuse distance: it becomes LIR, and the LIR key at the bottom of the stack
becomes HIR in its place.

A key has one node in a slot pool, to which the index leads. The lists hold slots of that pool, and
a node keeps its handle in each of the lists that it is in. It is freed once it is in none.
-/

namespace KeyHeat

inductive LirsStatus where
  /-- Hot. -/
  | lir
  /-- In the queue. -/
  | resident
  /-- Remembered in the stack and the ghost list only. -/
  | nonResident
  deriving DecidableEq, Repr

namespace LirsStatus

def mark : LirsStatus → String
  | lir => "L"
  | resident => "H"
  | nonResident => "N"

/-- The status as the self-check writes it. -/
def name : LirsStatus → String
  | lir => "Lir"
  | resident => "HirResident"
  | nonResident => "HirNonResident"

/-- Whether these are the lists that a key of the status should be in. -/
def isPlaced (inStack inQueue inGhosts : Bool) : LirsStatus → Bool
  | lir => inStack && !inQueue && !inGhosts
  | resident => inQueue && !inGhosts
  | nonResident => inStack && inGhosts && !inQueue

end LirsStatus

/-- A list that a key can be in. -/
inductive LirsLane where
  /-- Keys by last access, most recent first. -/
  | stack
  /-- Resident HIR keys; those at the back lose residency first. -/
  | queue
  /-- Non-resident keys, newest first. -/
  | ghosts
  deriving DecidableEq, Repr

/-- One value for each list. -/
structure LirsLanes (α : Type) where
  stack : α
  queue : α
  ghosts : α

namespace LirsLanes

variable {α β : Type}

def get (lanes : LirsLanes α) : LirsLane → α
  | .stack => lanes.stack
  | .queue => lanes.queue
  | .ghosts => lanes.ghosts

def set (lanes : LirsLanes α) (lane : LirsLane) (value : α) : LirsLanes α :=
  match lane with
  | .stack => { lanes with stack := value }
  | .queue => { lanes with queue := value }
  | .ghosts => { lanes with ghosts := value }

/-- Changes the value for one list and passes on what the change answers. -/
def change (lanes : LirsLanes α) (lane : LirsLane) (f : α → β × α) : β × LirsLanes α :=
  let ⟨stack, queue, ghosts⟩ := lanes
  match lane with
  | .stack =>
    let (answer, stack) := f stack
    (answer, ⟨stack, queue, ghosts⟩)
  | .queue =>
    let (answer, queue) := f queue
    (answer, ⟨stack, queue, ghosts⟩)
  | .ghosts =>
    let (answer, ghosts) := f ghosts
    (answer, ⟨stack, queue, ghosts⟩)

end LirsLanes

structure LirsNode (κ : Type) where
  key : κ
  status : LirsStatus
  /-- Where the node is in each list. -/
  handles : LirsLanes (Option SlotId)

def LirsNode.setHandle {κ : Type} (node : LirsNode κ) (lane : LirsLane) (handle : Option SlotId) :
    LirsNode κ :=
  { node with handles := node.handles.set lane handle }

structure Lirs (κ : Type) [BEq κ] [Hashable κ] where
  /-- A node for every key that is resident or remembered. -/
  nodes : SlotPool (LirsNode κ)
  /-- The node of each key. -/
  index : Std.HashMap κ SlotId
  lanes : LirsLanes (LinkedList SlotId)
  lirCount : Nat
  lirQuota : Nat
  residentQuota : Nat
  ghostQuota : Nat
  capacity : Nat

namespace Lirs

variable {κ : Type} [BEq κ] [Hashable κ]

/-! ## Construction -/

def ofQuotas (capacity lirQuota residentQuota ghostQuota : Nat) : Lirs κ :=
  { nodes := .empty
    index := ∅
    lanes := ⟨.empty, .empty, .empty⟩
    lirCount := 0
    lirQuota
    residentQuota
    ghostQuota
    capacity }

/-- The number of LIR keys: a share of the capacity that leaves room for one other. -/
def lirShare (capacity : Nat) (ratio : Float) : Nat :=
  min (Number.truncate (Number.ofCount capacity * ratio)) (capacity - 1)

/-- The number of resident HIR keys: the rest of the capacity, at least one. -/
def residentShare (capacity : Nat) (ratio : Float) : Nat :=
  max (Number.truncate (Number.ofCount capacity * (1 - ratio))) 1

/-- An empty separator; as many keys are remembered as are resident unless another bound is
given. -/
def create (capacity : Nat) (lirRatio : Float) (maxNonResident : Option Nat) :
    Except BuildProblem (Lirs κ) :=
  if !lirRatio.isFinite || lirRatio <= 0 || lirRatio >= 1 then
    .error (.lirRatioOutOfRange lirRatio)
  else
    .ok (ofQuotas capacity (lirShare capacity lirRatio) (residentShare capacity lirRatio)
      (maxNonResident.getD capacity))

/-! ## Nodes -/

/-- The number of nodes in a list. -/
def length (lirs : Lirs κ) (lane : LirsLane) : Nat := (lirs.lanes.get lane).length

def size (lirs : Lirs κ) : Nat := lirs.lirCount + lirs.length .queue

/-- The nodes of a list from the front to the back. -/
def listed (lirs : Lirs κ) (lane : LirsLane) : List (LirsNode κ) :=
  (lirs.lanes.get lane).toList.filterMap lirs.nodes.get?

/-- The keys of a list from the front to the back. -/
def keys (lirs : Lirs κ) (lane : LirsLane) : List κ := (lirs.listed lane).map (·.key)

def status? (lirs : Lirs κ) (key : κ) : Option LirsStatus :=
  (lirs.index[key]?.bind lirs.nodes.get?).map (·.status)

/-- Where the node `id` says that it is in a list. -/
def handle? (lirs : Lirs κ) (lane : LirsLane) (id : SlotId) : Option SlotId :=
  (lirs.nodes.get? id).bind (·.handles.get lane)

def setStatus (lirs : Lirs κ) (id : SlotId) (status : LirsStatus) : Lirs κ :=
  { lirs with nodes := lirs.nodes.modify id ({ · with status }) }

def setHandle (lirs : Lirs κ) (lane : LirsLane) (id : SlotId) (handle : Option SlotId) : Lirs κ :=
  { lirs with nodes := lirs.nodes.modify id (·.setHandle lane handle) }

/-- Makes a LIR node for a new key. -/
def allot (lirs : Lirs κ) (key : κ) : SlotId × Lirs κ :=
  let (id, nodes) := lirs.nodes.insert ⟨key, .lir, ⟨none, none, none⟩⟩
  (id, { lirs with nodes, index := lirs.index.insert key id })

/-! ## Nodes in lists -/

/-- Puts a node at the front of a list. -/
def enlist (lirs : Lirs κ) (lane : LirsLane) (id : SlotId) : Lirs κ :=
  let (handle, lanes) := lirs.lanes.change lane (·.push .front id)
  { lirs with lanes }.setHandle lane id (some handle)

/-- Moves what a handle leads to, to the front of its list. -/
def lift (lirs : Lirs κ) (lane : LirsLane) (handle? : Option SlotId) : Lirs κ :=
  { lirs with
    lanes := match handle? with
      | some handle => (lirs.lanes.change lane (·.move handle .front)).2
      | none => lirs.lanes }

/-- Removes from a list what a handle leads to. -/
def unlink (lirs : Lirs κ) (lane : LirsLane) (handle? : Option SlotId) : Lirs κ :=
  { lirs with
    lanes := match handle? with
      | some handle => (lirs.lanes.change lane (·.remove handle)).2
      | none => lirs.lanes }

/-- Takes the node with the given handle out of a list. -/
def delist (lirs : Lirs κ) (lane : LirsLane) (id : SlotId) (handle : Option SlotId) : Lirs κ :=
  (lirs.unlink lane handle).setHandle lane id none

/-- Takes the last node out of a list and gives it back. -/
def popBack (lirs : Lirs κ) (lane : LirsLane) : Option SlotId × Lirs κ :=
  match lirs.lanes.change lane (·.pop .back) with
  | (some id, lanes) => (some id, { lirs with lanes }.setHandle lane id none)
  | (none, lanes) => (none, { lirs with lanes })

/-- Frees a node and forgets its key. -/
def destroy (lirs : Lirs κ) (id : SlotId) : Lirs κ :=
  match lirs.nodes.remove id with
  | (some node, nodes) =>
    { { lirs with nodes }.unlink .ghosts node.handles.ghosts with
      index := lirs.index.erase node.key }
  | (none, nodes) => { lirs with nodes }

/-! ## Making room -/

/-- Takes keys that are not LIR off the bottom of the stack, and forgets those of them that are
not resident. -/
def prune (lirs : Lirs κ) : Lirs κ :=
  settle lirs (lirs.length .stack)
where
  settle (lirs : Lirs κ) : Nat → Lirs κ
    | 0 => lirs
    | fuel + 1 =>
      match (lirs.lanes.get .stack).peek? .back with
      | none => lirs
      | some bottom =>
        match lirs.nodes.get? bottom with
        | none => settle (lirs.popBack .stack).2 fuel
        | some node =>
          if node.status = .lir then
            lirs
          else
            let lirs := (lirs.popBack .stack).2
            settle (if node.handles.queue.isNone then lirs.destroy bottom else lirs) fuel

/-- Prunes the stack, and while there are too many LIR keys makes the one at its bottom the newest
resident HIR key. -/
def rebalance (lirs : Lirs κ) : Lirs κ :=
  let pruned := lirs.prune
  demoteExcess pruned (pruned.lirCount - pruned.lirQuota)
where
  demoteExcess (lirs : Lirs κ) : Nat → Lirs κ
    | 0 => lirs
    | excess + 1 =>
      match lirs.popBack .stack with
      | (some bottom, lirs) =>
        let lirs := (lirs.enlist .queue bottom).setStatus bottom .resident
        demoteExcess { lirs with lirCount := lirs.lirCount - 1 }.prune excess
      | (none, lirs) => lirs

/-- Forgets the oldest non-resident key, if there is one, and tells whether there was. -/
def evict (lirs : Lirs κ) : Bool × Lirs κ :=
  match lirs.lanes.change .ghosts (·.pop .back) with
  | (some oldest, lanes) =>
    let lirs := { lirs with lanes }
    -- The node keeps its handle in the ghost list, which leads nowhere by now.
    (true, (lirs.unlink .stack (lirs.handle? .stack oldest)).destroy oldest)
  | (none, lanes) => (false, { lirs with lanes })

/-- Forgets the oldest non-resident keys while there are too many. -/
def boundGhosts (lirs : Lirs κ) : Lirs κ :=
  shrink lirs (lirs.length .ghosts)
where
  shrink (lirs : Lirs κ) : Nat → Lirs κ
    | 0 => lirs
    | fuel + 1 =>
      if lirs.length .ghosts > lirs.ghostQuota then
        match lirs.evict with
        | (true, lirs) => shrink lirs fuel
        | (false, lirs) => lirs
      else
        lirs

/-- Ends the residency of the oldest key of the queue, if there is one, and tells whether there
was. The key stays remembered if it is in the stack. -/
def release (lirs : Lirs κ) : Bool × Lirs κ :=
  match lirs.popBack .queue with
  | (none, lirs) => (false, lirs)
  | (some id, lirs) =>
    let lirs := lirs.setStatus id .nonResident
    match lirs.nodes.get? id with
    | none => (true, lirs)
    | some node =>
      (true, if node.handles.stack.isSome then (lirs.enlist .ghosts id).boundGhosts
        else lirs.destroy id)

/-- Whether a key has to lose residency before another can become resident. -/
def mustRelease (lirs : Lirs κ) : Bool :=
  lirs.size ≥ lirs.capacity || lirs.length .queue ≥ lirs.residentQuota

/-- Releases the oldest keys of the queue until there is room or the queue is empty. -/
def makeRoom (lirs : Lirs κ) : Lirs κ :=
  settle lirs (lirs.length .queue)
where
  settle (lirs : Lirs κ) : Nat → Lirs κ
    | 0 => lirs
    | fuel + 1 =>
      if lirs.mustRelease then
        match lirs.release with
        | (true, lirs) => settle lirs fuel
        | (false, lirs) => lirs
      else
        lirs

/-! ## Accesses -/

/-- Adds a key that is neither resident nor remembered: as LIR while there are too few of them,
else as resident HIR. -/
def enroll (lirs : Lirs κ) (key : κ) : Lirs κ :=
  let (id, lirs) := lirs.makeRoom.allot key
  let lirs := lirs.enlist .stack id
  if lirs.lirCount < lirs.lirQuota then
    { lirs with lirCount := lirs.lirCount + 1 }
  else
    (lirs.enlist .queue id).setStatus id .resident

/-- A LIR key moves to the top of the stack, which is pruned if the key was at its bottom. -/
def touchLir (lirs : Lirs κ) (handle : SlotId) : Lirs κ :=
  let atBottom := (lirs.lanes.get .stack).endId .back = some handle
  let lirs := lirs.lift .stack (some handle)
  if atBottom then lirs.prune else lirs

/-- Makes a HIR key of the stack LIR, in exchange for the LIR key at the bottom if need be. -/
def promote (lirs : Lirs κ) (id handle : SlotId) : Lirs κ :=
  let lirs := (lirs.lift .stack (some handle)).setStatus id .lir
  { lirs with lirCount := lirs.lirCount + 1 }.rebalance

/-- A resident HIR key becomes LIR if it is in the stack, and else is put back there. -/
def touchResident (lirs : Lirs κ) (id : SlotId) (handles : LirsLanes (Option SlotId)) : Lirs κ :=
  match handles.stack with
  | some handle => (lirs.delist .queue id handles.queue).promote id handle
  | none => (lirs.enlist .stack id).lift .queue handles.queue

/-- Takes a remembered key out of the ghost list and makes room for it. -/
def reinstate (lirs : Lirs κ) (id : SlotId) (handle : Option SlotId) : Lirs κ :=
  (lirs.delist .ghosts id handle).makeRoom

/-- A remembered key becomes LIR, after room has been made for it. Were it no longer in the
stack by then, it would become resident HIR. -/
def touchNonResident (lirs : Lirs κ) (id : SlotId) (handle : Option SlotId) : Lirs κ :=
  let lirs := lirs.reinstate id handle
  match lirs.handle? .stack id with
  | some handle => lirs.promote id handle
  | none => (((lirs.enlist .stack id).enlist .queue id).setStatus id .resident).prune

/-- An access to the key of a node. -/
def access (lirs : Lirs κ) (id : SlotId) : Access × Lirs κ :=
  match lirs.nodes.get? id with
  | none => (.error (.invariant "LIRS index points at a freed node"), lirs)
  | some node =>
    match node.status, node.handles.stack with
    | .lir, some handle => (.ok (), lirs.touchLir handle)
    | .lir, none => (.error (.invariant "LIR node missing from stack"), lirs)
    | .resident, _ => (.ok (), lirs.touchResident id node.handles)
    | .nonResident, _ => (.ok (), lirs.touchNonResident id node.handles.ghosts)

def put (lirs : Lirs κ) (key : κ) : Access × Lirs κ :=
  if lirs.capacity = 0 then (.error .capacity, lirs)
  else match lirs.index[key]? with
    | some id => lirs.access id
    | none => (.ok (), lirs.enroll key)

def get (lirs : Lirs κ) (key : κ) : Access × Lirs κ :=
  match lirs.index[key]? with
  | some id => lirs.access id
  | none => (.error .notFound, lirs)

/-! ## Reports -/

def isHot (lirs : Lirs κ) (key : κ) : Bool := lirs.status? key = some .lir

/-- The LIR keys in the order of the stack, most recent first. -/
def hotKeys (lirs : Lirs κ) : List κ :=
  ((lirs.listed .stack).filter (·.status = .lir)).map (·.key)

def diagnostics [KeyText κ] (lirs : Lirs κ) : String :=
  s!"lirs capacity={lirs.capacity} lir={lirs.lirCount}/{lirs.lirQuota} " ++
    s!"hir={lirs.length .queue}/{lirs.residentQuota} " ++
    s!"nonresident={lirs.length .ghosts}/{lirs.ghostQuota}\n" ++
    "  stack:" ++ String.join ((lirs.listed .stack).map fun node ↦
      " " ++ KeyText.text node.key ++ ":" ++ node.status.mark) ++ "\n" ++
    "  queue:" ++ String.join ((lirs.keys .queue).map fun key ↦ " " ++ KeyText.text key) ++ "\n"

/-! ## Self-check -/

/-- Whether the handle of a node leads to the node in a list. -/
def isLinked (lirs : Lirs κ) (id : SlotId) (node : LirsNode κ) (lane : LirsLane) : Bool :=
  (node.handles.get lane).any fun handle ↦ (lirs.lanes.get lane).get? handle = some id

/-- Checks the handles of a node, and that it is in the lists that its status asks for. -/
def checkNode (lirs : Lirs κ) (id : SlotId) (node : LirsNode κ) : Except String Unit := do
  let inStack := lirs.isLinked id node .stack
  let inQueue := lirs.isLinked id node .queue
  let inGhosts := lirs.isLinked id node .ghosts
  if node.handles.stack.isSome ≠ inStack ∨ node.handles.queue.isSome ≠ inQueue ∨
      node.handles.ghosts.isSome ≠ inGhosts then
    throw "LIRS node handle points at a foreign slot"
  if !node.status.isPlaced inStack inQueue inGhosts then
    throw (s!"LIRS node in state {node.status.name} has stack={inStack} queue={inQueue} " ++
      s!"ghost={inGhosts}")

def check (lirs : Lirs κ) : Except String Unit := do
  lirs.lanes.stack.checkLinks
  lirs.lanes.queue.checkLinks
  lirs.lanes.ghosts.checkLinks
  if lirs.index.size ≠ lirs.nodes.size then
    throw s!"LIRS index holds {lirs.index.size} keys but arena holds {lirs.nodes.size} nodes"
  lirs.nodes.toList.forM fun (id, node) ↦ lirs.checkNode id node
  let lir := lirs.nodes.toList.countP fun (_, node) ↦ node.status = .lir
  if lir ≠ lirs.lirCount ∨ lirs.lirCount > lirs.lirQuota then
    throw s!"LIRS counts {lir} LIR nodes, tracks {lirs.lirCount}, quota {lirs.lirQuota}"
  if lirs.size > lirs.capacity then
    throw s!"LIRS holds {lirs.size} resident keys with capacity {lirs.capacity}"
  if lirs.length .ghosts > lirs.ghostQuota then
    throw "LIRS non-resident history over bound"
  let bottom? := ((lirs.lanes.get .stack).peek? .back).bind lirs.nodes.get?
  if lirs.lirCount > 0 ∧ !bottom?.any (·.status = .lir) then
    throw "LIRS stack bottom is not LIR"

end Lirs

end KeyHeat

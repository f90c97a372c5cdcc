import KeyHeat.Container.SlotPool

/-!
# Linked lists in a slot pool

A doubly linked list whose nodes live in a slot pool, so that a node is named by its slot and can
be moved or removed in constant time. Links and list ends come in pairs indexed by `End`: the
link of a node toward the front is `none` exactly at the front node. One routine to attach a node
and one to detach it therefore serve both ends.
-/

namespace KeyHeat

inductive End where
  | front
  | back
  deriving DecidableEq, Repr

def End.opposite : End → End
  | .front => .back
  | .back => .front

/-- One value for each end. -/
structure Ends (α : Type) where
  front : α
  back : α
  deriving DecidableEq, Repr

namespace Ends

variable {α : Type}

def get (pair : Ends α) : End → α
  | .front => pair.front
  | .back => pair.back

def set (pair : Ends α) (side : End) (value : α) : Ends α :=
  match side with
  | .front => { pair with front := value }
  | .back => { pair with back := value }

end Ends

/-- A value with its neighbours toward either end. -/
structure LinkedNode (α : Type) where
  value : α
  links : Ends (Option SlotId)

def LinkedNode.setLink {α : Type} (node : LinkedNode α) (side : End) (link : Option SlotId) :
    LinkedNode α :=
  { node with links := node.links.set side link }

structure LinkedList (α : Type) where
  nodes : SlotPool (LinkedNode α)
  ends : Ends (Option SlotId)

namespace LinkedList

variable {α : Type}

def empty : LinkedList α := ⟨.empty, ⟨none, none⟩⟩

instance : Inhabited (LinkedList α) := ⟨empty⟩

def length (list : LinkedList α) : Nat := list.nodes.size

def isEmpty (list : LinkedList α) : Bool := list.nodes.isEmpty

def contains (list : LinkedList α) (id : SlotId) : Bool := list.nodes.contains id

def get? (list : LinkedList α) (id : SlotId) : Option α :=
  (list.nodes.get? id).map (·.value)

/-- The node at an end of the list. -/
def endId (list : LinkedList α) (side : End) : Option SlotId := list.ends.get side

/-- The value at an end of the list. -/
def peek? (list : LinkedList α) (side : End) : Option α :=
  (list.endId side).bind list.get?

/-! ## Walking the links -/

/-- The nodes met from `cursor` on when the links toward `toward` are followed, at most `fuel`
of them. -/
def walk (list : LinkedList α) (toward : End) : Nat → Option SlotId → List (SlotId × α)
  | 0, _ => []
  | _, none => []
  | fuel + 1, some id =>
    match list.nodes.get? id with
    | some node => (id, node.value) :: list.walk toward fuel (node.links.get toward)
    | none => []

/-- The nodes with their values from the front to the back. -/
def entries (list : LinkedList α) : List (SlotId × α) :=
  list.walk .back list.length (list.endId .front)

def toList (list : LinkedList α) : List α :=
  list.entries.map (·.2)

/-! ## Changing the list -/

/-- Attaches the unattached node `id` at an end. -/
def attach (list : LinkedList α) (id : SlotId) (side : End) : LinkedList α :=
  let ⟨nodes, ends⟩ := list
  let inner := side.opposite
  let old := ends.get side
  let nodes := nodes.modify id fun node ↦
    { node with links := (Ends.mk none none).set inner old }
  match old with
  | some neighbour =>
    ⟨nodes.modify neighbour (·.setLink side (some id)), ends.set side (some id)⟩
  | none => ⟨nodes, (ends.set inner (some id)).set side (some id)⟩

/-- Joins the node's neighbour on one side, or that end of the list, to what lies on the other
side of the node. -/
def bypass (list : LinkedList α) (links : Ends (Option SlotId)) (side : End) : LinkedList α :=
  let ⟨nodes, ends⟩ := list
  let away := side.opposite
  match links.get side with
  | some neighbour => ⟨nodes.modify neighbour (·.setLink away (links.get away)), ends⟩
  | none => ⟨nodes, ends.set side (links.get away)⟩

/-- Takes a node with the given links out of the list but leaves it in the pool. -/
def detach (list : LinkedList α) (id : SlotId) (links : Ends (Option SlotId)) : LinkedList α :=
  let ⟨nodes, ends⟩ := (list.bypass links .front).bypass links .back
  ⟨nodes.modify id fun node ↦ { node with links := ⟨none, none⟩ }, ends⟩

/-- Adds `value` at an end and gives back its handle. -/
def push (list : LinkedList α) (side : End) (value : α) : SlotId × LinkedList α :=
  let ⟨nodes, ends⟩ := list
  let (id, nodes) := nodes.insert ⟨value, none, none⟩
  (id, attach ⟨nodes, ends⟩ id side)

/-- Removes the node `id`, frees its slot and gives back its value. Without such a node there is
nothing to give back, and the list is left alone. -/
def remove (list : LinkedList α) (id : SlotId) : Option α × LinkedList α :=
  match list.nodes.get? id with
  | some node =>
    let ⟨nodes, ends⟩ := list.detach id node.links
    (some node.value, ⟨nodes.erase id, ends⟩)
  | none => (none, list)

/-- The list that a removal leaves. -/
def erase (list : LinkedList α) (id : SlotId) : LinkedList α := (list.remove id).2

/-- Removes the node at an end and gives back its value. -/
def pop (list : LinkedList α) (side : End) : Option α × LinkedList α :=
  match list.endId side with
  | some id => list.remove id
  | none => (none, list)

/-- Moves the node `id` to an end and tells whether there is such a node. Without one the list is
left alone. -/
def move (list : LinkedList α) (id : SlotId) (side : End) : Bool × LinkedList α :=
  if list.endId side = some id then
    (true, list)
  else
    match list.nodes.get? id with
    | some node => (true, (list.detach id node.links).attach id side)
    | none => (false, list)

/-- The list that a move leaves. -/
def relink (list : LinkedList α) (id : SlotId) (side : End) : LinkedList α := (list.move id side).2

/-! ## Self-check -/

/-- Follows the links from `cursor` toward the back. Each node must link back to the one before
it, and no more nodes may be met than the pool holds. The answer is how many were met and the
last of them. -/
def checkWalk (list : LinkedList α) (walked : Nat) (previous : Option SlotId) :
    Nat → Option SlotId → Except String (Nat × Option SlotId)
  | _, none => .ok (walked, previous)
  | fuel, some id =>
    match list.nodes.get? id with
    | none => .error "list links to a vacant slot"
    | some node =>
      if node.links.front ≠ previous then
        .error "list back link does not mirror forward link"
      else match fuel with
        | 0 => .error "list walk revisits a node"
        | fuel + 1 => list.checkWalk (walked + 1) (some id) fuel node.links.back

/-- Checks that the walk from the front agrees with the links back, covers every node and ends at
the back. -/
def checkLinks (list : LinkedList α) : Except String Unit := do
  let (walked, last) ← list.checkWalk 0 none list.length (list.endId .front)
  if last ≠ list.endId .back ∨ walked ≠ list.length then
    .error s!"list walk reached {walked} of {list.length} nodes"

end LinkedList

end KeyHeat

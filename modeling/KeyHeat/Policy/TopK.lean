import KeyHeat.Container.LazyHeap
import KeyHeat.Error
import KeyHeat.Key

/-!
# The `k` most accessed keys

Every access is counted exactly. Keys whose count has reached the threshold compete for `k`
places; a newcomer takes the place of the member of least count only with a strictly higher
count. Members are kept in a lazy heap by count, which is rebuilt when it holds more than four
entries for each member.
-/

namespace KeyHeat

structure TopK (κ : Type) [BEq κ] [Hashable κ] where
  /-- The number of accesses to every key ever seen, for which there is no upper bound. -/
  counts : Std.HashMap κ Nat
  /-- The hot keys with their counts. -/
  members : LazyHeap κ Nat
  k : Nat
  threshold : Nat

namespace TopK

variable {κ : Type} [BEq κ] [Hashable κ]

/-- Heap entries tolerated for each member before the heap is rebuilt. -/
def rebuildFactor : Nat := 4

def empty (k threshold : Nat) : TopK κ := ⟨∅, .empty, k, threshold⟩

def size (topK : TopK κ) : Nat := topK.members.size

/-- The number of accesses to `key`. -/
def count (topK : TopK κ) (key : κ) : Nat := topK.counts.getD key 0

/-- The number of distinct keys ever counted. -/
def tracked (topK : TopK κ) : Nat := topK.counts.size

/-- Lets a key that is no member compete with the member of least count. -/
def challenge (members : LazyHeap κ Nat) (key : κ) (count : Nat) : LazyHeap κ Nat :=
  match members.peek? with
  | (some (_, lowest), members) =>
    if count > lowest then members.pop?.2.update key count else members
  | (none, members) => members

/-- The members after `key` has been counted up to `count`. -/
def rank (members : LazyHeap κ Nat) (k threshold : Nat) (key : κ) (count : Nat) :
    LazyHeap κ Nat :=
  if count < threshold then members
  else if members.contains key then (members.update key count).maybeRebuild rebuildFactor
  else if members.size < k then members.update key count
  else challenge members key count

def record (topK : TopK κ) (key : κ) : TopK κ :=
  let ⟨counts, members, k, threshold⟩ := topK
  let count := counts.getD key 0 + 1
  ⟨counts.insert key count, rank members k threshold key count, k, threshold⟩

/-- Reads and writes alike are recorded, unless there are no places. -/
def access (topK : TopK κ) (key : κ) : Access × TopK κ :=
  if topK.k = 0 then (.error .capacity, topK) else (.ok (), topK.record key)

def isHot (topK : TopK κ) (key : κ) : Bool := topK.members.contains key

/-- The members with their counts, highest count first. The order among equal counts is that of the
keys; a sort of the members alone would leave them in whatever order the map lists them. -/
def ranking [Ord κ] (topK : TopK κ) : List (κ × Nat) :=
  topK.members.toList.mergeSort fun (a, m) (b, n) ↦
    if m = n then (compare a b).isLE else m > n

def hotKeys [Ord κ] (topK : TopK κ) : List κ := topK.ranking.map (·.1)

/-- The members are listed by count, those of equal count in the order of their lines. -/
def diagnostics [KeyText κ] (topK : TopK κ) : String :=
  let lines := topK.members.toList.map fun (key, _) ↦
    let count := topK.count key
    (count, s!"  {KeyText.text key}: {count}\n")
  let ordered := lines.mergeSort fun (m, a) (n, b) ↦ if m = n then a ≤ b else m > n
  s!"heap_topk k={topK.k} threshold={topK.threshold} members={topK.size} " ++
    s!"tracked={topK.tracked}\n" ++ String.join (ordered.map (·.2))

def check (topK : TopK κ) : Except String Unit := do
  if topK.size > topK.k then
    throw s!"top-k holds {topK.size} members for k = {topK.k}"
  match topK.members.toList.find? fun (key, score) ↦
      score ≠ topK.count key || topK.count key < topK.threshold with
  | some (key, score) =>
    throw s!"member score {score} disagrees with count {topK.count key}"
  | none => pure ()

end TopK

end KeyHeat

import ObjectGraph.Overlay.Basic
/-!
The tree of an overlay as nodes that refer to each other by index. Leaves are also linked from left to
right. Nothing at all comes of an index that leads nowhere, and of a way down that does not end.
-/

namespace ObjectGraph

inductive NodeRef where
  | leaf (i : Nat)
  | inner (i : Nat)
deriving DecidableEq

structure LeafNode where
  entries : List Entry := []
  next : Option Nat := none
deriving DecidableEq

structure InnerNode where
  separators : List Bytes
  children : List NodeRef
deriving DecidableEq

structure Nodes where
  leaves : List LeafNode
  inners : List InnerNode
  root : NodeRef
deriving DecidableEq

structure Sprout where
  separator : Bytes
  node : NodeRef

namespace Nodes

variable {α : Type}

def insertAt? (i : Nat) (x : α) (l : List α) : Option (List α) :=
  if i ≤ l.length then some (l.insertIdx i x) else none

def splitOff? (i : Nat) (l : List α) : Option (List α × List α) :=
  if i ≤ l.length then some (l.splitAt i) else none

def empty : Nodes := ⟨[{}], [], .leaf 0⟩

def childFor (order : KeyOrder) (k : Bytes) (separators : List Bytes) : Nat :=
  (separators.takeWhile fun sep => order sep k ≠ .gt).length

/-- The index of the leaf that a key belongs to, and the inner nodes on the way with the index of the child
that was taken, the deepest one first. -/
def descend (order : KeyOrder) (k : Bytes) (s : Nodes) :
    Nat → NodeRef → List (Nat × Nat) → Option (Nat × List (Nat × Nat))
  | _, .leaf i, path => some (i, path)
  | 0, .inner _, _ => none
  | n + 1, .inner i, path => do
    let node ← s.inners[i]?
    let taken := childFor order k node.separators
    s.descend order k n (← node.children[taken]?) ((i, taken) :: path)

def leafFor (order : KeyOrder) (k : Bytes) (s : Nodes) : Option (Nat × List (Nat × Nat)) :=
  -- no way down is longer than there are inner nodes
  s.descend order k s.inners.length s.root []

def slot (order : KeyOrder) (k : Bytes) (entries : List Entry) : Bool × Nat :=
  let i := (entries.takeWhile fun e => order e.1 k = .lt).length
  (entries[i]?.any fun e => order e.1 k = .eq, i)

def fill (order : KeyOrder) (k v : Bytes) (s : Nodes) (i : Nat) : Option (Bool × Nodes × Option Sprout) := do
  let leaf ← s.leaves[i]?
  let (found, at?) := slot order k leaf.entries
  if found then
    return (true, { s with leaves := s.leaves.set i { leaf with entries := leaf.entries.set at? (k, v) } }, none)
  let entries ← insertAt? at? (k, v) leaf.entries
  if entries.length ≤ maxKeys then
    return (false, { s with leaves := s.leaves.set i { leaf with entries } }, none)
  let (lower, upper) ← splitOff? (entries.length / 2) entries
  let first ← upper.head?
  let new := s.leaves.length
  return (false, { s with leaves := s.leaves.set i ⟨lower, some new⟩ ++ [⟨upper, leaf.next⟩] },
    some ⟨first.1, .leaf new⟩)

def absorb (s : Nodes) (i taken : Nat) (new : Sprout) : Option (Nodes × Option Sprout) := do
  let node ← s.inners[i]?
  let separators ← insertAt? taken new.separator node.separators
  let children ← insertAt? (taken + 1) new.node node.children
  if separators.length ≤ maxKeys then
    return ({ s with inners := s.inners.set i ⟨separators, children⟩ }, none)
  let middle := separators.length / 2
  let (lower, upper) ← splitOff? (middle + 1) separators
  let (before, after) ← splitOff? (middle + 1) children
  return ({ s with inners := s.inners.set i ⟨lower.dropLast, before⟩ ++ [⟨upper, after⟩] },
    some ⟨lower.getLast?.getD new.separator, .inner s.inners.length⟩)

def carry : Nodes × Option Sprout → Nat × Nat → Option (Nodes × Option Sprout)
  | (s, none), _ => some (s, none)
  | (s, some new), (i, taken) => s.absorb i taken new

def crown : Nodes × Option Sprout → Nodes
  | (s, none) => s
  | (s, some new) =>
    { s with inners := s.inners ++ [⟨[new.separator], [s.root, new.node]⟩], root := .inner s.inners.length }

def insert (order : KeyOrder) (k v : Bytes) (s : Nodes) : Option (Bool × Nodes) := do
  let (i, path) ← s.leafFor order k
  let (found, grown) ← s.fill order k v i
  return (found, crown (← path.foldlM carry grown))

def erase (order : KeyOrder) (k : Bytes) (s : Nodes) : Option (Bool × Nodes) := do
  let (i, _) ← s.leafFor order k
  let leaf ← s.leaves[i]?
  let (found, at?) := slot order k leaf.entries
  if found then
    return (true, { s with leaves := s.leaves.set i { leaf with entries := leaf.entries.eraseIdx at? } })
  else return (false, s)

end Nodes

structure LinkedOverlay where
  order : KeyOrder
  quota : Quota
  nodes : Nodes
  size : Nat

namespace LinkedOverlay

def create (order : KeyOrder) (capacity pageSize : Nat) : Except Error LinkedOverlay := do
  let quota ← Quota.create capacity pageSize
  return ⟨order, quota, Nodes.empty, 0⟩

def put (o : LinkedOverlay) (k v : Bytes) : ExceptT Error Option LinkedOverlay := do
  let quota ← ofExcept (o.quota.take (k.length + v.length))
  let (found, nodes) ← o.nodes.insert o.order k v
  return { o with quota, nodes, size := if found then o.size else o.size + 1 }

def putParts (o : LinkedOverlay) (k : Bytes) (parts : List Bytes) : ExceptT Error Option LinkedOverlay :=
  o.put k parts.flatten

def remove (o : LinkedOverlay) (k : Bytes) : Option (Bool × LinkedOverlay) := do
  let (found, nodes) ← o.nodes.erase o.order k
  return (found, { o with nodes, size := if found then o.size - 1 else o.size })

def reset (o : LinkedOverlay) : LinkedOverlay :=
  { o with quota := o.quota.reset, nodes := Nodes.empty, size := 0 }

end LinkedOverlay

end ObjectGraph

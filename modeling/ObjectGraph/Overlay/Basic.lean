import ObjectGraph.Arena.Quota
import ObjectGraph.Overlay.Tree

namespace ObjectGraph

structure Overlay where
  order : KeyOrder
  quota : Quota
  tree : Tree
  size : Nat

namespace Overlay

def create (order : KeyOrder) (capacity pageSize : Nat) : Except Error Overlay := do
  let quota ← Quota.create capacity pageSize
  return ⟨order, quota, Tree.empty, 0⟩

def find? (o : Overlay) (k : Bytes) : Option Entry := o.tree.find? o.order k

def get? (o : Overlay) (k : Bytes) : Option Bytes := (o.find? k).map Prod.snd

def put (o : Overlay) (k v : Bytes) : Except Error Overlay := do
  let quota ← o.quota.take (k.length + v.length)
  return { o with
    quota
    tree := o.tree.insert o.order k v
    size := if (o.find? k).isSome then o.size else o.size + 1 }

def putParts (o : Overlay) (k : Bytes) (parts : List Bytes) : Except Error Overlay :=
  o.put k parts.flatten

def remove (o : Overlay) (k : Bytes) : Bool × Overlay :=
  match o.find? k with
  | none => (false, o)
  | some _ => (true, { o with tree := o.tree.erase o.order k, size := o.size - 1 })

def reset (o : Overlay) : Overlay :=
  { o with quota := o.quota.reset, tree := Tree.empty, size := 0 }

def entries (o : Overlay) : List Entry := o.tree.entries

def startingAt (o : Overlay) (k : Bytes) : List Entry :=
  match o.tree.leavesFrom o.order k with
  | [] => []
  | es :: later => Dictionary.startingAt o.order k es ++ later.flatten

end Overlay

end ObjectGraph

import ObjectGraph.Workspace.Merge

namespace ObjectGraph

structure Workspace where
  base : Table
  overlay : Overlay

inductive Origin where
  | staged
  | base
deriving DecidableEq

namespace Workspace

def create (base : Table) (capacity pageSize : Nat) : Except Error Workspace := do
  let overlay ← Overlay.create base.order capacity pageSize
  return ⟨base, overlay⟩

def pending (w : Workspace) : Nat := w.overlay.size

def IsDirty (w : Workspace) : Prop := w.pending ≠ 0

instance (w : Workspace) : Decidable w.IsDirty := inferInstanceAs (Decidable (w.pending ≠ 0))

def lookup? (w : Workspace) (k : Bytes) : Option (Origin × Bytes) :=
  match w.overlay.get? k with
  | some staged => (Staged.payload? staged).map (.staged, ·)
  | none => (w.base.get? k).map (.base, ·)

def get? (w : Workspace) (k : Bytes) : Option Bytes := (w.lookup? k).map Prod.snd

def contains (w : Workspace) (k : Bytes) : Bool := (w.get? k).isSome

def put (w : Workspace) (k v : Bytes) : Except Error Workspace := do
  let overlay ← w.overlay.put k (Staged.upsert v)
  return { w with overlay }

/-- Stages a removal. A key that is not in the pinned version is only taken out of the overlay. -/
def delete (w : Workspace) (k : Bytes) : Except Error Workspace := do
  if (w.base.get? k).isSome then
    let overlay ← w.overlay.put k Staged.tombstone
    return { w with overlay }
  else
    return { w with overlay := (w.overlay.remove k).2 }

def cursor (w : Workspace) : MergedCursor := MergedCursor.create w.base w.overlay

def entries (w : Workspace) : List Entry := w.cursor.seekFirst.remaining

def startingAt (w : Workspace) (k : Bytes) : List Entry := (w.cursor.seek k).remaining

def extending (w : Workspace) (start : Bytes) : List Entry :=
  (w.startingAt start).takeWhile fun e => start.isPrefixOf e.1

def reset (w : Workspace) : Workspace := { w with overlay := w.overlay.reset }

def refresh (w : Workspace) (base : Table) : Workspace := { w with base }

end Workspace

end ObjectGraph

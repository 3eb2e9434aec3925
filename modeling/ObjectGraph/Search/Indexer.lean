import ObjectGraph.Key
import ObjectGraph.Overlay.Basic
import ObjectGraph.Schema.Basic
import ObjectGraph.Search.Entries
import ObjectGraph.Workspace.Replay
/-!
Maintenance of the search table. The changes of a commit are staged as keys of the search table, each
followed by a byte that tells whether the key goes in or out; since that byte does not count in the
order of the overlay, the last word on a key is the one that is kept.
-/

namespace ObjectGraph

inductive IndexEdit where
  | remove
  | insert
deriving DecidableEq

namespace IndexEdit

def mark : IndexEdit → UInt8
  | remove => 0
  | insert => 1

end IndexEdit

structure Indexer where
  staged : Overlay

abbrev Indexing := ExceptT Error (StateM Indexer)

namespace Indexer

def create (capacity pageSize : Nat) : Except Error Indexer := do
  return ⟨← Overlay.create KeyOrder.ignoringLast capacity pageSize⟩

def pending (i : Indexer) : Nat := i.staged.size

def reset (i : Indexer) : Indexer := ⟨i.staged.reset⟩

def stageKey (key : Bytes) (edit : IndexEdit) : Indexing Unit := do
  let i ← get
  set (⟨← ofExcept (i.staged.put (key ++ [edit.mark]) [])⟩ : Indexer)

def stageValue (object field : Id) (raw : Bytes) (edit : IndexEdit) : Indexing Unit := do
  match indexForms raw with
  | .error cause => throw (.corrupted cause)
  | .ok forms => forms.forM fun (v, value) => stageKey (IndexKey.encode v field value object) edit

def observe (schema : Schema) : Observer Indexer := fun c =>
  match Key.ofBytes? c.key with
  | some (.field object field) => do
    unless c.IsNoop ∨ ¬ schema.isIndexed field do
      -- what old and new have in common goes out before it goes in
      if let some old := c.old then stageValue object field old .remove
      if let some new := c.new then stageValue object field new .insert
  | _ => pure ()

def writeKey (t : TableId) (w : WriteTxn) (e : Entry) : Except Error WriteTxn :=
  if e.1.getLast? = some IndexEdit.insert.mark then w.put t e.1.dropLast []
  else (w.delete t e.1.dropLast).map Prod.snd

def flush (i : Indexer) (t : TableId) (w : WriteTxn) : Except Error (Nat × WriteTxn × Indexer) := do
  let entries := i.staged.entries
  return (entries.length, ← entries.foldlM (writeKey t) w, i.reset)

end Indexer

end ObjectGraph

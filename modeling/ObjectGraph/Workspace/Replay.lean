import ObjectGraph.Storage.Store
import ObjectGraph.Workspace.Basic

namespace ObjectGraph

structure Change where
  key : Bytes
  old : Option Bytes
  new : Option Bytes
deriving DecidableEq

def Change.IsNoop (c : Change) : Prop := c.old = c.new

instance (c : Change) : Decidable c.IsNoop := inferInstanceAs (Decidable (c.old = c.new))

abbrev Observer (σ : Type) := Change → ExceptT Error (StateM σ) Unit

abbrev Replay (σ : Type) := ExceptT Error (StateM (WriteTxn × σ))

variable {σ : Type}

namespace Replay

def announce (observer : Observer σ) (c : Change) : Replay σ Unit :=
  ExceptT.mk fun (w, s) =>
    let (result, s) := (observer c).run s
    (result, w, s)

def write (t : TableId) (c : Change) : Replay σ Unit := do
  let (w, s) ← get
  match c.new with
  | some v => set (← ofExcept (w.put t c.key v), s)
  | none => set ((← ofExcept (w.delete t c.key)).2, s)

def entry (t : TableId) (observers : List (Observer σ)) (e : Entry) : Replay σ Unit := do
  let table ← ofExcept ((← get).1.working.table? t)
  let c : Change := ⟨e.1, table.get? e.1, Staged.payload? e.2⟩
  observers.forM (announce · c)
  write t c

end Replay

def Workspace.replay (w : Workspace) (t : TableId) (observers : List (Observer σ)) :
    Replay σ Nat := do
  w.overlay.entries.forM (Replay.entry t observers)
  return w.overlay.entries.length

end ObjectGraph

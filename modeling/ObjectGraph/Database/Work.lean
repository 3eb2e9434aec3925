import ObjectGraph.Database.Basic
import ObjectGraph.Session.Objects
import ObjectGraph.Session.Publish

namespace ObjectGraph

structure Work where
  database : Database
  session : Session

abbrev Working := ExceptT Error (StateM Work)

namespace Working

variable {α : Type}

def edit (action : Editing α) : Working α := ExceptT.mk fun w =>
  let (result, session) := action.run w.session
  (result, { w with session })

/-- Publishes what the session has staged. A failed commit publishes nothing, and the changes stay
staged; its identifier is used up all the same. -/
def commit (stamp : Stamp) : Working (Option CommitId) := do
  edit Editing.requireWritable
  let ⟨db, s⟩ ← get
  unless s.workspace.IsDirty do return none
  let (c, sequence) := db.sequence.next stamp
  let (result, w, recorders) := (s.publish c).run (db.store.beginWrite, s.recorders)
  let db := { db with sequence }
  let s := { s with recorders }
  match result with
  | .error e =>
    set (Work.mk db s)
    throw e
  | .ok () =>
    let store := db.store.publish w
    set (Work.mk { db with store } (s.rebase store.committed))
    return some c

end Working

def Database.transaction {α : Type} (db : Database) (stamp : Stamp) (body : Working α) :
    Except Error α × Database :=
  match db.session true with
  | .error e => (.error e, db)
  | .ok s =>
    let work : Working α := do
      let a ← body
      discard <| Working.commit stamp
      return a
    let (result, w) := work.run ⟨db, s⟩
    (result, w.database)

end ObjectGraph

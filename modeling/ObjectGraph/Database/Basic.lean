import ObjectGraph.History.CommitId
import ObjectGraph.History.Log
import ObjectGraph.Search.Rebuild
import ObjectGraph.Session.Basic

namespace ObjectGraph

structure Database where
  catalog : Catalog
  store : Store
  sequence : CommitSequence

namespace Database

def session (db : Database) (writable : Bool) : Except Error Session :=
  Session.create db.catalog db.store.committed writable

def history (db : Database) : History := ⟨db.store.committed, db.catalog.tables⟩

def search (db : Database) (field : Id) (criterion : Criterion) : Except Error (List Id) :=
  Searcher.find ⟨db.store.committed, db.catalog⟩ field criterion

/-- Publishes what the rebuild has written, or aborts the transaction where the rebuild fails. -/
def rebuild (field : Id) : ExceptT Error (StateM Database) Nat := fun db =>
  match (Rebuild.run db.catalog field).run db.store.beginWrite with
  | (.ok count, w) => (.ok count, { db with store := db.store.publish w })
  | (.error e, _) => (.error e, db)

def rebuildSearch (db : Database) (field : Id) : Except Error (Nat × Database) :=
  let (result, db) := (rebuild field).run db
  result.map (·, db)

def resume (db : Database) : Except Error Database := do
  match ← db.history.lastCommit? with
  | none => return db
  | some c => return { db with sequence := CommitSequence.startingAfter c }

end Database

end ObjectGraph

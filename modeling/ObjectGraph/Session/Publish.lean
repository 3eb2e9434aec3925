import ObjectGraph.History.CommitId
import ObjectGraph.History.Log
import ObjectGraph.Session.Basic

namespace ObjectGraph

namespace Recorders

def start (r : Recorders) (c : CommitId) (actor : Id) : Except Error Recorders := do
  let draft ← r.draft.mapM fun d => d.start (Int64.ofNat c.millis) actor
  return ⟨draft, r.indexer.map Indexer.reset⟩

def observeDraft : Observer Recorders := fun c => ExceptT.mk fun r =>
  match r.draft with
  | none => (.ok (), r)
  | some d =>
    let (result, d) := (Draft.observe c).run d
    (result, { r with draft := some d })

def observeIndex (schema : Schema) : Observer Recorders := fun c => ExceptT.mk fun r =>
  match r.indexer with
  | none => (.ok (), r)
  | some i =>
    let (result, i) := (Indexer.observe schema c).run i
    (result, { r with indexer := some i })

def storeRecord (t : Tables) (c : CommitId) : Replay Recorders Unit := do
  let (w, r) ← get
  if let some d := r.draft then set (← ofExcept (d.store t c w), r)

def flushIndex (t : Tables) : Replay Recorders Unit := do
  let (w, r) ← get
  if let some i := r.indexer then
    let (_, w, i) ← ofExcept (i.flush t.search w)
    set (w, { r with indexer := some i })

end Recorders

def Session.publish (s : Session) (c : CommitId) : Replay Recorders Unit := do
  let t := s.catalog.tables
  let (w, r) ← get
  set (w, ← ofExcept (r.start c s.actor))
  discard <| s.workspace.replay t.objects
    [Recorders.observeDraft, Recorders.observeIndex s.catalog.schema]
  Recorders.storeRecord t c
  Recorders.flushIndex t

end ObjectGraph

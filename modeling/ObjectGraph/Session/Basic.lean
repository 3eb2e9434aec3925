import ObjectGraph.Catalog
import ObjectGraph.History.Draft
import ObjectGraph.Search.Indexer
import ObjectGraph.Search.Query
/-!
A session pins one version of the tables and stages changes of the object table over it. It sees its
own changes; nobody else does before they are committed.
-/

namespace ObjectGraph

structure Recorders where
  draft : Option Draft
  indexer : Option Indexer

structure Session where
  catalog : Catalog
  writable : Bool
  actor : Id
  snapshot : Snapshot
  workspace : Workspace
  recorders : Recorders

abbrev Editing := ExceptT Error (StateM Session)

def recordedType (object : Id) (value : Bytes) : Except Error Id :=
  match Id.ofBytes? value with
  | some type => .ok type
  | none => .error (.corrupted (.malformedType object))

def Recorders.create (c : Config) : Except Error Recorders := do
  let draft ← if c.history then some <$> Draft.create c.arenaCapacity c.pageSize else pure none
  let indexer ← if c.search then some <$> Indexer.create c.arenaCapacity c.pageSize else pure none
  return ⟨draft, indexer⟩

namespace Session

def create (c : Catalog) (snapshot : Snapshot) (writable : Bool) : Except Error Session := do
  -- a read-only session stages nothing, so it has room for one page only
  let capacity := if writable then c.config.arenaCapacity else c.config.pageSize
  let workspace ← Workspace.create (snapshot.table c.tables.objects) capacity c.config.pageSize
  let recorders ← if writable then Recorders.create c.config else pure ⟨none, none⟩
  return ⟨c, writable, c.config.actor, snapshot, workspace, recorders⟩

def withActor (s : Session) (actor : Id) : Session := { s with actor }

def pending (s : Session) : Nat := s.workspace.pending

def get? (s : Session) (k : Key) : Option Bytes := s.workspace.get? k.bytes

def contains (s : Session) (k : Key) : Bool := s.workspace.contains k.bytes

def type? (s : Session) (object : Id) : Except Error (Option Id) :=
  match s.get? (.object object) with
  | none => .ok none
  | some v => do
    let type ← recordedType object v
    return if type = Id.nil then none else some type

def typeOf (s : Session) (object : Id) : Except Error Id := do
  match ← s.type? object with
  | none => throw (.objectNotFound object)
  | some type => return type

def search (s : Session) (field : Id) (criterion : Criterion) : Except Error (List Id) :=
  Searcher.find ⟨s.snapshot, s.catalog⟩ field criterion

def rollback (s : Session) : Session := { s with workspace := s.workspace.reset }

def rebase (s : Session) (snapshot : Snapshot) : Session :=
  { s with
    snapshot
    workspace := s.workspace.reset.refresh (snapshot.table s.catalog.tables.objects) }

end Session

namespace Editing

variable {α : Type}

def ask (question : Session → Except Error α) : Editing α := do
  ofExcept (question (← get))

def requireWritable : Editing Unit := do
  unless (← get).writable do throw .readOnly

def put (k : Key) (v : Bytes) : Editing Unit := do
  let s ← get
  set { s with workspace := ← ofExcept (s.workspace.put k.bytes v) }

def erase (key : Bytes) : Editing Unit := do
  let s ← get
  set { s with workspace := ← ofExcept (s.workspace.delete key) }

end Editing

end ObjectGraph

import ObjectGraph.Catalog
import ObjectGraph.Search.Indexer

namespace ObjectGraph

abbrev Rebuilding := ExceptT Error (StateM WriteTxn)

namespace Rebuild

def staleOf (search : Table) (field : Id) (v : Variant) : List Bytes :=
  let entries := search.startingAt (IndexKey.seekKey v field [])
  (entries.takeWhile fun e => (IndexKey.ofBytes? e.1).any fun k => k.Is v field).map Prod.fst

def stale (search : Table) (field : Id) : List Bytes := Variant.all.flatMap (staleOf search field)

def values (objects : Table) (field : Id) : List (Id × Bytes) :=
  objects.entries.filterMap fun e =>
    match Key.ofBytes? e.1 with
    | some (.field o f) => if f = field then some (o, e.2) else none
    | _ => none

def remove (t : TableId) (key : Bytes) : Rebuilding Unit := do
  let (_, w) ← ofExcept ((← get).delete t key)
  set w

def run (c : Catalog) (field : Id) : Rebuilding Nat := do
  let _ ← ofExcept (c.indexedField field)
  let w ← get
  let search ← ofExcept (w.working.table? c.tables.search)
  let objects ← ofExcept (w.working.table? c.tables.objects)
  let values := values objects field
  (stale search field).forM (remove c.tables.search)
  let indexer ← ofExcept (Indexer.create c.config.arenaCapacity c.config.pageSize)
  let (staged, indexer) :=
    (values.forM fun (o, raw) => Indexer.stageValue o field raw .insert).run indexer
  ofExcept staged
  let (_, w, _) ← ofExcept (indexer.flush c.tables.search (← get))
  set w
  return values.length

end Rebuild

end ObjectGraph

import ObjectGraph.Search.IndexKey
import ObjectGraph.Storage.Store

namespace ObjectGraph

structure Tables where
  objects : TableId
  history : TableId
  historyByObject : TableId
  search : TableId
deriving DecidableEq

def Store.openTables (s : Store) : Except Error (Tables × Store) := do
  let (objects, s) ← s.openTable "objects" KeyOrder.lexicographic
  let (history, s) ← s.openTable "history" KeyOrder.lexicographic
  let (historyByObject, s) ← s.openTable "history_by_object" KeyOrder.lexicographic
  let (search, s) ← s.openTable "search" KeyOrder.search
  return (⟨objects, history, historyByObject, search⟩, s)

end ObjectGraph

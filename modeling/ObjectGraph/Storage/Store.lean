import ObjectGraph.Error
import ObjectGraph.Storage.Table
/-!
A store of named tables. Readers hold the snapshot they began with; a write transaction works on a
copy, which is published whole or not at all. The bytes of all keys and values are counted, and a
write that would exceed the map size is refused.
-/

namespace ObjectGraph

abbrev TableId := Nat

structure Snapshot where
  tables : List Table
  size : Nat

structure Store where
  mapSize : Nat
  committed : Snapshot

structure WriteTxn where
  mapSize : Nat
  working : Snapshot

namespace Snapshot

def empty : Snapshot := ⟨[], 0⟩

def table? (s : Snapshot) (t : TableId) : Except Error Table :=
  match s.tables[t]? with
  | some table => .ok table
  | none => .error (.store (.unknownTable t))

def table (s : Snapshot) (t : TableId) : Table :=
  s.tables.getD t ⟨"", KeyOrder.lexicographic, []⟩

end Snapshot

namespace Store

def defaultMapSize : Nat := 1 <<< 30

def maxTables : Nat := 65535

def empty (mapSize : Nat) : Store := ⟨mapSize, Snapshot.empty⟩

def openTable (s : Store) (name : String) (order : KeyOrder) : Except Error (TableId × Store) :=
  match s.committed.tables.findIdx? (·.name = name) with
  | some t => .ok (t, s)
  | none =>
    let tables := s.committed.tables
    if maxTables ≤ tables.length then .error (.store (.tooManyTables maxTables))
    else .ok (tables.length,
      { s with committed := { s.committed with tables := tables ++ [⟨name, order, []⟩] } })

def beginWrite (s : Store) : WriteTxn := ⟨s.mapSize, s.committed⟩

def publish (s : Store) (w : WriteTxn) : Store := { s with committed := w.working }

end Store

namespace WriteTxn

def withTable (w : WriteTxn) (t : TableId) (table : Table) (size : Nat) : WriteTxn :=
  { w with working := ⟨w.working.tables.set t table, size⟩ }

def put (w : WriteTxn) (t : TableId) (k v : Bytes) : Except Error WriteTxn := do
  let table ← w.working.table? t
  let replaced := ((table.find? k).map entrySize).getD 0
  let required := w.working.size - replaced + entrySize (k, v)
  if w.mapSize < required then throw (.store (.mapFull required w.mapSize))
  return w.withTable t (table.insert k v) required

def delete (w : WriteTxn) (t : TableId) (k : Bytes) : Except Error (Bool × WriteTxn) := do
  let table ← w.working.table? t
  match table.find? k with
  | none => return (false, w)
  | some e => return (true, w.withTable t (table.erase k) (w.working.size - entrySize e))

end WriteTxn

end ObjectGraph

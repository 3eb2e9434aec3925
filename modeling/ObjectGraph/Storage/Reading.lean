import ObjectGraph.Storage.Store

namespace ObjectGraph

def Table.firstAfter? (t : Table) (k : Bytes) : Option Entry :=
  t.entries.find? fun e => t.order k e.1 = .lt

structure TableCursor where
  table : Table
  current? : Option Entry

namespace TableCursor

def create (t : Table) : TableCursor := ⟨t, none⟩

def seek (c : TableCursor) (k : Bytes) : TableCursor :=
  { c with current? := (c.table.startingAt k).head? }

def seekFirst (c : TableCursor) : TableCursor := { c with current? := c.table.entries.head? }

def seekLast (c : TableCursor) : TableCursor := { c with current? := c.table.last.head? }

def advance (c : TableCursor) : TableCursor :=
  match c.current? with
  | none => c
  | some e => { c with current? := c.table.firstAfter? e.1 }

end TableCursor

namespace Snapshot

def get? (s : Snapshot) (t : TableId) (k : Bytes) : Except Error (Option Bytes) :=
  return (← s.table? t).get? k

def cursor (s : Snapshot) (t : TableId) : Except Error TableCursor := return .create (← s.table? t)

end Snapshot

end ObjectGraph

import ObjectGraph.KeyOrder
import ObjectGraph.Ordered.Dictionary

namespace ObjectGraph

abbrev Entry := Bytes × Bytes

def entrySize (e : Entry) : Nat := e.1.length + e.2.length

structure Table where
  name : String
  order : KeyOrder
  entries : List Entry

namespace Table

def find? (t : Table) (k : Bytes) : Option Entry := Dictionary.find? t.order k t.entries

def get? (t : Table) (k : Bytes) : Option Bytes := Dictionary.get? t.order k t.entries

def insert (t : Table) (k v : Bytes) : Table :=
  { t with entries := Dictionary.insert t.order k v t.entries }

def erase (t : Table) (k : Bytes) : Table :=
  { t with entries := Dictionary.erase t.order k t.entries }

def startingAt (t : Table) (k : Bytes) : List Entry := Dictionary.startingAt t.order k t.entries

def last (t : Table) : List Entry := t.entries.getLast?.toList

end Table

end ObjectGraph

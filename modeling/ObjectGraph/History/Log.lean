import ObjectGraph.History.View
import ObjectGraph.Tables

namespace ObjectGraph

def objectCommitKey (object : Id) (c : CommitId) : Bytes := object.bytes ++ c.bytes

def WriteTxn.objectType? (w : WriteTxn) (t : Tables) (object : Id) : Except Error (Option Id) := do
  let objects ← w.working.table? t.objects
  return (objects.get? object.bytes).bind Id.ofBytes?

def Draft.store (d : Draft) (t : Tables) (c : CommitId) (w : WriteTxn) : Except Error WriteTxn := do
  if d.isEmpty then return w
  let (resolved, d) := (resolveTypes (w.objectType? t)).run d
  resolved
  let w ← w.put t.history c.bytes d.bytes
  d.touched.foldlM (fun w object => w.put t.historyByObject (objectCommitKey object c) []) w

structure History where
  snapshot : Snapshot
  tables : Tables

namespace History

def readCommitId (key : Bytes) : Except Error CommitId :=
  match Id.ofBytes? key with
  | some c => .ok c
  | none => .error (.corrupted .commitKey)

def record? (h : History) (c : CommitId) : Option Bytes :=
  (h.snapshot.table h.tables.history).get? c.bytes

def commits (h : History) : Except Error (List CommitId) :=
  (h.snapshot.table h.tables.history).entries.mapM fun e => readCommitId e.1

def lastCommit? (h : History) : Except Error (Option CommitId) :=
  match (h.snapshot.table h.tables.history).last with
  | [] => .ok none
  | e :: _ => (readCommitId e.1).map some

def readObjectCommit (object : Id) (key : Bytes) : Except Error CommitId :=
  match Id.ofBytes? (key.drop object.bytes.length) with
  | some c => .ok c
  | none => .error (.corrupted .objectCommitKey)

def commitsFor (h : History) (object : Id) : Except Error (List CommitId) :=
  let entries := (h.snapshot.table h.tables.historyByObject).startingAt object.bytes
  (entries.takeWhile fun e => object.bytes.isPrefixOf e.1).mapM fun e =>
    readObjectCommit object e.1

def commit? (h : History) (c : CommitId) : Except Error (Option Commit) :=
  (h.record? c).mapM (Commit.decode c)

def view? (h : History) (c : CommitId) : Except Error (Option RecordView) :=
  (h.record? c).mapM RecordView.ofBytes

end History

end ObjectGraph

import ObjectGraph.Error
import ObjectGraph.History.Draft

namespace ObjectGraph

structure ObjectChanges where
  object : Id
  type : Id
  events : List Event
deriving DecidableEq

abbrev CommitId := Id

structure Commit where
  id : CommitId
  time : Int64
  actor : Id
  objects : List ObjectChanges
deriving DecidableEq

namespace RecordBytes

def slice (bs : Bytes) (offset length : Nat) : Except Error Bytes :=
  match Bytes.slice? bs offset length with
  | some part => .ok part
  | none => .error (.corrupted (.truncatedRecord offset))

def number (bs : Bytes) (offset : Nat) : Except Error Nat :=
  (slice bs offset 4).map Bytes.ofLittleEndian

def id (bs : Bytes) (offset : Nat) : Except Error Id :=
  match Id.readAt? bs offset with
  | some a => .ok a
  | none => .error (.corrupted (.truncatedRecord offset))

/-- Follows the link stored at `link`: zero is the end, all else must lie past `origin`. -/
def follow (bs : Bytes) (origin link : Nat) : Except Error (Option Nat) := do
  let target ← number bs link
  if target = 0 then return none
  else if origin < target ∧ target < bs.length then return some target
  else throw (.corrupted (.recordLink link target))

def reach (bs : Bytes) : Except Error (Option Nat) → Nat
  | .ok (some offset) => bs.length - offset + 1
  | _ => 0

theorem reach_follow (bs : Bytes) (origin link : Nat) :
    reach bs (follow bs origin link) < bs.length - origin + 1 := by
  simp only [follow, bind, Except.bind]
  split
  · simp [reach]
  · simp only [pure, Except.pure, throw, throwThe, MonadExceptOf.throw]
    split
    · simp [reach]
    · split
      · next h => simp only [reach]; omega
      · simp [reach]

def payload (bs : Bytes) (offset : Nat) : Except Error Bytes := do
  let start ← number bs offset
  let length ← number bs (offset + 4)
  if length = 0 then return [] else slice bs start length

def event (bs : Bytes) (offset : Nat) : Except Error Event := do
  let head ← slice bs offset Event.headLength
  let body := offset + Event.headLength
  match head.headD 0 with
  | 1 => return .created (← id bs body)
  | 2 => return .deleted (← id bs body)
  | 3 => return .changed (← id bs body) (← payload bs (body + 16)) (← payload bs (body + 24))
  | 4 => return .linked (← id bs body) (← id bs (body + 16)) (← id bs (body + 32))
  | 5 => return .unlinked (← id bs body) (← id bs (body + 16)) (← id bs (body + 32))
  | kind => throw (.corrupted (.eventKind kind))

def events (bs : Bytes) (link : Except Error (Option Nat)) : List (Except Error Event) :=
  match link with
  | .error e => [.error e]
  | .ok none => []
  | .ok (some offset) => event bs offset :: events bs (follow bs offset (offset + 4))
termination_by reach bs link
decreasing_by exact reach_follow ..

def blocks (bs : Bytes) (link : Except Error (Option Nat)) : List (Except Error Nat) :=
  match link with
  | .error e => [.error e]
  | .ok none => []
  | .ok (some offset) =>
    match slice bs offset Block.headLength with
    | .error e => [.error e]
    | .ok _ => .ok offset :: blocks bs (follow bs offset (offset + 40))
termination_by reach bs link
decreasing_by exact reach_follow ..

end RecordBytes

structure RecordView where
  bytes : Bytes

structure BlockView where
  bytes : Bytes
  offset : Nat

namespace BlockView

def object (b : BlockView) : Id := (Id.readAt? b.bytes b.offset).getD Id.nil

def type (b : BlockView) : Id := (Id.readAt? b.bytes (b.offset + 16)).getD Id.nil

def events (b : BlockView) : List (Except Error Event) :=
  RecordBytes.events b.bytes (RecordBytes.follow b.bytes b.offset (b.offset + 36))

end BlockView

namespace RecordView

def ofBytes (bs : Bytes) : Except Error RecordView := do
  let head ← RecordBytes.slice bs 0 Draft.headLength
  if head.take 4 ≠ Draft.magic then throw (.corrupted .recordMagic)
  let version := Bytes.ofLittleEndian ((head.drop 4).take 2)
  if version ≠ Draft.version then throw (.recordFormat Draft.version version)
  return ⟨bs⟩

def time (v : RecordView) : Int64 :=
  (UInt64.ofNat (Bytes.ofLittleEndian ((v.bytes.drop 8).take 8))).toInt64

def actor (v : RecordView) : Id := (Id.readAt? v.bytes 16).getD Id.nil

def objectCount (v : RecordView) : Except Error Nat := RecordBytes.number v.bytes 32

def objects (v : RecordView) : List (Except Error BlockView) :=
  (RecordBytes.blocks v.bytes (RecordBytes.follow v.bytes 0 36)).map (·.map fun o => ⟨v.bytes, o⟩)

end RecordView

namespace Commit

def readBlock (b : Except Error BlockView) : Except Error ObjectChanges := do
  let b ← b
  return ⟨b.object, b.type, ← b.events.mapM fun e => e⟩

def decode (id : CommitId) (bs : Bytes) : Except Error Commit := do
  let v ← RecordView.ofBytes bs
  return ⟨id, v.time, v.actor, ← v.objects.mapM readBlock⟩

def changesFor? (c : Commit) (object : Id) : Option ObjectChanges :=
  c.objects.find? (·.object = object)

end Commit

end ObjectGraph

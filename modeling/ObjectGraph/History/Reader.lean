import ObjectGraph.History.View
/-!
Reading a commit record one step after the other, with offsets of 64 bits. What is wrong with a record is
an error; nothing at all comes of a sum beyond 64 bits and of bytes taken from where there are none.
-/

namespace ObjectGraph

abbrev Reader := ExceptT Error Option

namespace Reader

def sum (a b : Nat) : Option Nat := if a + b < 1 <<< 64 then some (a + b) else none

def range (bs : Bytes) (start stop : Nat) : Option Bytes :=
  if start ≤ stop ∧ stop ≤ bs.length then some ((bs.drop start).take (stop - start)) else none

def byte (bs : Bytes) (offset : Nat) : Option UInt8 := bs[offset]?

def slice (bs : Bytes) (offset length : Nat) : Reader Bytes :=
  match (sum offset length).bind (range bs offset) with
  | some part => pure part
  | none => throw (.corrupted (.truncatedRecord offset))

def number (bs : Bytes) (offset : Nat) : Reader Nat := return Bytes.ofLittleEndian (← slice bs offset 4)

def readAt? (bs : Bytes) (offset : Nat) : Option (Option Id) :=
  return (range bs offset (← sum offset 16)).bind Id.ofBytes?

def id (bs : Bytes) (offset : Nat) : Reader Id := do
  match ← readAt? bs offset with
  | some a => return a
  | none => throw (.corrupted (.truncatedRecord offset))

def follow (bs : Bytes) (origin link : Nat) : Reader (Option Nat) := do
  let target ← number bs link
  if target = 0 then return none
  else if origin < target ∧ target < bs.length then return some target
  else throw (.corrupted (.recordLink link target))

def payload (bs : Bytes) (offset : Nat) : Reader Bytes := do
  let start ← number bs offset
  let length ← number bs (← sum offset 4)
  if length = 0 then return [] else slice bs start length

def event (bs : Bytes) (offset : Nat) : Reader Event := do
  let head ← slice bs offset Event.headLength
  let body ← sum offset Event.headLength
  match ← byte head 0 with
  | 1 => return .created (← id bs body)
  | 2 => return .deleted (← id bs body)
  | 3 => return .changed (← id bs body) (← payload bs (← sum body 16)) (← payload bs (← sum body 24))
  | 4 => return .linked (← id bs body) (← id bs (← sum body 16)) (← id bs (← sum body 32))
  | 5 => return .unlinked (← id bs body) (← id bs (← sum body 16)) (← id bs (← sum body 32))
  | kind => throw (.corrupted (.eventKind kind))

def view (bs : Bytes) : Reader RecordView := do
  let head ← slice bs 0 Draft.headLength
  if (← range head 0 4) ≠ Draft.magic then throw (.corrupted .recordMagic)
  let version := Bytes.ofLittleEndian [← byte bs 4, ← byte bs 5]
  if version ≠ Draft.version then throw (.recordFormat Draft.version version)
  return ⟨bs⟩

def time (v : RecordView) : Option Int64 :=
  return (UInt64.ofNat (Bytes.ofLittleEndian (← range v.bytes 8 16))).toInt64

def actor (v : RecordView) : Option Id := return (← readAt? v.bytes 16).getD Id.nil

def objectCount (v : RecordView) : Reader Nat := number v.bytes 32

def object (b : BlockView) : Option Id := return (← readAt? b.bytes b.offset).getD Id.nil

def type (b : BlockView) : Option Id := return (← readAt? b.bytes (← sum b.offset 16)).getD Id.nil

/-- Where a walk stands. An error in the link that was followed last is an item of its own, the next and
last one. -/
inductive Place where
  | before (offset : Nat)
  | broken (e : Error)
  | done

def Place.ofLink : Except Error (Option Nat) → Place
  | .ok (some offset) => .before offset
  | .ok none => .done
  | .error e => .broken e

def proceed (bs : Bytes) (origin link : Nat) : Option Place :=
  return .ofLink (← (follow bs origin link).run)

def Place.left (bs : Bytes) : Place → Nat
  | .before offset => bs.length - offset + 2
  | .broken _ => 1
  | .done => 0

theorem inside_of_follow {bs : Bytes} {origin link target : Nat}
    (h : (follow bs origin link).run = some (.ok (some target))) :
    origin < target ∧ target < bs.length := by
  rw [follow, ExceptT.run_bind] at h
  cases hnumber : (number bs link).run with
  | none =>
    rw [hnumber] at h
    contradiction
  | some r =>
    rw [hnumber] at h
    cases r with
    | error e => cases h
    | ok n =>
      dsimp only [Option.bind_eq_bind, Option.bind_some] at h
      split at h
      · cases h
      · split at h
        next hinside =>
          cases h
          exact hinside
        next => cases h

theorem left_proceed {bs : Bytes} {origin link : Nat} {p : Place} (h : proceed bs origin link = some p) :
    p.left bs < bs.length - origin + 2 := by
  obtain ⟨r, hr, hp⟩ := Option.bind_eq_some_iff.mp h
  cases hp
  cases r with
  | error e => exact Nat.le_add_left ..
  | ok next =>
    cases next with
    | none => exact Nat.succ_pos _
    | some target =>
      have hinside := inside_of_follow hr
      simp only [Place.ofLink, Place.left]
      omega

structure Iteration (σ α : Type) where
  next : σ → Option (Option (α × σ))
  left : σ → Nat
  left_lt {s : σ} {a : α} {s' : σ} : next s = some (some (a, s')) → left s' < left s

namespace Iteration

variable {α β σ : Type}

def items (i : Iteration σ α) (s : σ) : Option (List α) :=
  match _h : i.next s with
  | none => none
  | some none => some []
  | some (some (a, s')) => (i.items s').map (a :: ·)
termination_by i.left s
decreasing_by exact i.left_lt ‹_›

def collect (i : Iteration σ α) (make : α → Reader β) (s : σ) : Reader (List β) :=
  match _h : i.next s with
  | none => (none : Option (Except Error (List β)))
  | some none => return []
  | some (some (a, s')) => return (← make a) :: (← i.collect make s')
termination_by i.left s
decreasing_by exact i.left_lt ‹_›

end Iteration

def nextBlock (bs : Bytes) : Place → Option (Option (Except Error BlockView × Place))
  | .done => return none
  | .broken e => return some (.error e, .done)
  | .before offset => do
    match ← (slice bs offset Block.headLength).run with
    | .error e => return some (.error e, .done)
    | .ok _ => return some (.ok ⟨bs, offset⟩, ← proceed bs offset (← sum offset 40))

def nextEvent (bs : Bytes) : Place → Option (Option (Except Error Event × Place))
  | .done => return none
  | .broken e => return some (.error e, .done)
  | .before offset => do
    let next ← proceed bs offset (← sum offset 4)
    return some (← (event bs offset).run, next)

theorem left_nextBlock {bs : Bytes} {p p' : Place} {item : Except Error BlockView}
    (h : nextBlock bs p = some (some (item, p'))) : p'.left bs < p.left bs := by
  cases p with
  | done => cases h
  | broken e =>
    cases h
    exact Nat.zero_lt_one
  | before offset =>
    obtain ⟨r, -, h⟩ := Option.bind_eq_some_iff.mp h
    cases r with
    | error e =>
      cases h
      exact Nat.succ_pos _
    | ok _ =>
      obtain ⟨link, -, h⟩ := Option.bind_eq_some_iff.mp h
      obtain ⟨next, hnext, h⟩ := Option.bind_eq_some_iff.mp h
      cases h
      exact left_proceed hnext

theorem left_nextEvent {bs : Bytes} {p p' : Place} {item : Except Error Event}
    (h : nextEvent bs p = some (some (item, p'))) : p'.left bs < p.left bs := by
  cases p with
  | done => cases h
  | broken e =>
    cases h
    exact Nat.zero_lt_one
  | before offset =>
    obtain ⟨link, -, h⟩ := Option.bind_eq_some_iff.mp h
    obtain ⟨next, hnext, h⟩ := Option.bind_eq_some_iff.mp h
    obtain ⟨r, -, h⟩ := Option.bind_eq_some_iff.mp h
    cases h
    exact left_proceed hnext

def blocks (bs : Bytes) : Iteration Place (Except Error BlockView) :=
  ⟨nextBlock bs, Place.left bs, left_nextBlock⟩

def events (bs : Bytes) : Iteration Place (Except Error Event) :=
  ⟨nextEvent bs, Place.left bs, left_nextEvent⟩

def firstBlock (v : RecordView) : Option Place := proceed v.bytes 0 36

def firstEvent (b : BlockView) : Option Place := do proceed b.bytes b.offset (← sum b.offset 36)

def objects (v : RecordView) : Option (List (Except Error BlockView)) := do
  (blocks v.bytes).items (← firstBlock v)

def eventsOf (b : BlockView) : Option (List (Except Error Event)) := do
  (events b.bytes).items (← firstEvent b)

def readBlock (item : Except Error BlockView) : Reader ObjectChanges := do
  let b ← item
  return ⟨← object b, ← type b, ← (events b.bytes).collect (fun e => e) (← firstEvent b)⟩

def decode (c : CommitId) (bs : Bytes) : Reader Commit := do
  let v ← view bs
  let objects ← (blocks v.bytes).collect readBlock (← firstBlock v)
  return ⟨c, ← time v, ← actor v, objects⟩

end Reader

end ObjectGraph

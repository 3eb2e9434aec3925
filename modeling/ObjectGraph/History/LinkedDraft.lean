import ObjectGraph.Arena.Words
import ObjectGraph.History.Reader
/-!
A draft laid out in an arena while it grows. What is allotted later is linked to and counted in bytes that are
already there. Nothing at all comes of a write to bytes that are not there.
-/

namespace ObjectGraph

/-- The block of the last object, with the event that the next one is linked to. -/
structure OpenBlock where
  object : Id
  offset : Nat
  lastEvent : Option Nat := none
  events : Nat := 0

structure LinkedDraft where
  arena : Arena
  objects : Nat := 0
  lastObject : Option Nat := none
  current : Option OpenBlock := none
  deleted : Option Id := none
  touched : List Id := []

abbrev Linking := ExceptT Error (StateT LinkedDraft Option)

instance {σ : Type} : MonadLift Reader (ExceptT Error (StateT σ Option)) :=
  ⟨fun m => ExceptT.mk (StateT.lift m.run)⟩

namespace LinkedDraft

open Reader (sum)
open Words (fit)

def bytes (l : LinkedDraft) : Option Bytes := Words.contents l.arena

def isEmpty (l : LinkedDraft) : Bool := l.objects = 0

def allot (length : Nat) : Linking Nat := do
  let (span, arena) ← Words.allocZeroed (← get).arena length
  modify ({ · with arena })
  return span.offset

def allotPayload (payload : Bytes) : Linking Nat := do
  if payload.isEmpty then return 0
  let (span, arena) ← Words.alloc (← get).arena payload
  modify ({ · with arena })
  return span.offset

def put (offset : Nat) (bs : Bytes) : Linking Unit := do
  let arena ← Words.patch (← get).arena offset bs
  modify ({ · with arena })

def putNumber (offset n : Nat) : Linking Unit := put offset (Bytes.littleEndian 4 n)

def start (time : Int64) (actor : Id) : Linking Unit := do
  modify fun l => { arena := l.arena.reset }
  let offset ← allot Draft.headLength
  (guard (offset = 0) : Option Unit)
  put 0 Draft.magic
  put 4 (Bytes.littleEndian 2 Draft.version)
  put 8 (Bytes.littleEndian 8 time.toUInt64.toNat)
  put 16 actor.bytes

def create (capacity pageSize : Nat) : Reader LinkedDraft := do
  let arena ← ofExcept (Arena.create capacity pageSize)
  let (result, l) ← ((start 0 Id.nil).run.run { arena } : Option (Except Error Unit × LinkedDraft))
  ofExcept result
  return l

def link (last : Option Nat) (next head offset : Nat) : Linking Unit :=
  match last with
  | some last => do putNumber (← sum last next) offset
  | none => do putNumber (← sum head 36) offset

def count (head n : Nat) : Linking Unit := do putNumber (← sum head 32) (← fit 32 n)

def grow (last : Option Nat) (next head n length : Nat) (first : Bytes) : Linking Nat := do
  let offset ← allot length
  put offset first
  link last next head offset
  count head n
  return offset

def appendBlock (object : Id) : Linking OpenBlock := do
  let l ← get
  let offset ← grow l.lastObject 40 0 (l.objects + 1) Block.headLength object.bytes
  let o : OpenBlock := { object, offset }
  modify fun l => { l with
    objects := l.objects + 1
    lastObject := some offset
    current := some o
    touched := l.touched ++ [object] }
  return o

def openBlock (object : Id) : Linking OpenBlock := do
  match (← get).current.filter (·.object = object) with
  | some o => return o
  | none => appendBlock object

def appendEvent (o : OpenBlock) (kind : UInt8) (bodyLength : Nat) : Linking Nat := do
  let offset ← grow o.lastEvent 4 o.offset (o.events + 1) (Event.headLength + bodyLength) [kind]
  modify ({ · with current := some { o with lastEvent := some offset, events := o.events + 1 } })
  sum offset Event.headLength

def add (object : Id) (kind : UInt8) (bodyLength : Nat) : Linking Nat := do
  appendEvent (← openBlock object) kind bodyLength

def setType (object type : Id) : Linking Unit := do
  let o ← openBlock object
  put (← sum o.offset 16) type.bytes

def addObjectEvent (object : Id) (kind : UInt8) (type : Id) : Linking Unit := do
  put (← add object kind 16) type.bytes
  setType object type

def addChange (object field : Id) (old new : Bytes) : Linking Unit := do
  let body ← add object 3 32
  let oldAt ← allotPayload old
  let newAt ← allotPayload new
  put body field.bytes
  putNumber (← sum body 16) oldAt
  putNumber (← sum body 20) old.length
  putNumber (← sum body 24) newAt
  putNumber (← sum body 28) new.length

def addHalf (kind : UInt8) (h : Half) : Linking Unit := do
  let body ← add h.object kind 48
  put body h.field.bytes
  put (← sum body 16) h.other.bytes
  put (← sum body 32) h.otherField.bytes

def observeObject (object : Id) (c : Change) : Linking Unit := do
  match ← ofExcept (Draft.readType c.old), ← ofExcept (Draft.readType c.new) with
  | none, some type => addObjectEvent object 1 type
  | some type, none =>
    addObjectEvent object 2 type
    modify ({ · with deleted := some object })
  | some before, some after =>
    unless before = after do
      addObjectEvent object 2 before
      addObjectEvent object 1 after
  | none, none => pure ()

def observeAssociation (h : Half) (c : Change) : Linking Unit :=
  match c.old, c.new with
  | none, some _ => addHalf 4 h
  | some _, none => addHalf 5 h
  | _, _ => pure ()

def observe (c : Change) : Linking Unit :=
  match Key.ofBytes? c.key with
  | none => throw (.corrupted (.keyLength c.key.length))
  | some (.object a) => observeObject a c
  | some (.field a f) => do
    unless c.new.isNone ∧ (← get).deleted = some a ∨ c.IsNoop do
      addChange a f (c.old.getD []) (c.new.getD [])
  | some (.association h) => do
    unless c.new.isNone ∧ (← get).deleted = some h.object ∨ c.IsNoop do
      observeAssociation h c

section Resolve

variable {σ α : Type}

abbrev Resolving (σ : Type) := ExceptT Error (StateT (LinkedDraft × σ) Option)

def inside (m : Linking α) : Resolving σ α :=
  ExceptT.mk fun (l, s) => (m.run.run l).map fun (r, l) => (r, l, s)

def outside (m : ExceptT Error (StateM σ) α) : Resolving σ α :=
  ExceptT.mk fun (l, s) => let (r, s) := m.run s; some (r, l, s)

def resolveType (lookup : TypeLookup σ) (bs : Bytes) (offset : Nat) (object : Id) : Resolving σ Unit := do
  if (← Reader.id bs (← sum offset 16)) = Id.nil then
    (← outside (lookup object)).forM fun type => inside (put (offset + 16) type.bytes)

end Resolve

end LinkedDraft

section Resolve

open LinkedDraft

variable {σ : Type}

def TypeLookup.resolveFrom (lookup : TypeLookup σ) (offset : Nat) : Resolving σ Unit := do
  if offset = 0 then return
  let bs ← bytes (← get).1
  let object ← Reader.id bs offset
  let next ← Reader.number bs (← Reader.sum offset 40)
  resolveType lookup bs offset object
  lookup |>.resolveFrom next
partial_fixpoint

def LinkedDraft.resolve (lookup : TypeLookup σ) : Resolving σ Unit := do
  let bs ← bytes (← get).1
  lookup.resolveFrom (← Reader.number bs 36)

end Resolve

end ObjectGraph

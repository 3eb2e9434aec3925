import ObjectGraph.Arena.Quota
import ObjectGraph.History.Event
import ObjectGraph.Key
import ObjectGraph.Workspace.Replay
/-!
A commit record under construction. It observes the changes of a commit in key order and collects
events in one block per object. All offsets follow from the lengths of what comes before, so the
bytes are laid out only when the record is asked for. The budget is charged piece by piece: a change
that does not fit may leave an empty block, or an event without its payload.
-/

namespace ObjectGraph

structure Item where
  event : Event
  stray : Bytes := []

structure Block where
  object : Id
  type : Id
  items : List Item

structure Draft where
  quota : Quota
  time : Int64
  actor : Id
  blocks : List Block
  deleted : Option Id

namespace Item

def length (i : Item) : Nat :=
  Event.headLength + i.event.bodyLength + i.event.payload.length + i.stray.length

def encode (i : Item) (offset next : Nat) : Bytes :=
  i.event.kind :: 0 :: 0 :: 0 :: Bytes.littleEndian 4 next ++
    i.event.body (offset + Event.headLength + i.event.bodyLength) ++ i.event.payload ++ i.stray

def totalLength : List Item → Nat
  | [] => 0
  | i :: rest => i.length + totalLength rest

def encodeAll (offset : Nat) : List Item → Bytes
  | [] => []
  | i :: rest =>
    i.encode offset (if rest.isEmpty then 0 else offset + i.length) ++
      encodeAll (offset + i.length) rest

end Item

namespace Block

def headLength : Nat := 44

def length (b : Block) : Nat := headLength + Item.totalLength b.items

def encode (b : Block) (offset next : Nat) : Bytes :=
  b.object.bytes ++ b.type.bytes ++ Bytes.littleEndian 4 b.items.length ++
    Bytes.littleEndian 4 (if b.items.isEmpty then 0 else offset + headLength) ++
    Bytes.littleEndian 4 next ++ Item.encodeAll (offset + headLength) b.items.reverse

def encodeAll (offset : Nat) : List Block → Bytes
  | [] => []
  | b :: rest =>
    b.encode offset (if rest.isEmpty then 0 else offset + b.length) ++
      encodeAll (offset + b.length) rest

end Block

abbrev Drafting := ExceptT Error (StateM Draft)

abbrev TypeLookup (σ : Type) := Id → ExceptT Error (StateM σ) (Option Id)

def Block.resolve {σ : Type} (lookup : TypeLookup σ) (b : Block) : ExceptT Error (StateM σ) Block :=
  if b.type = Id.nil then do return { b with type := (← lookup b.object).getD Id.nil } else return b

namespace Draft

def magic : Bytes := [0x4f, 0x42, 0x48, 0x52]

def version : Nat := 1

def headLength : Nat := 40

def start (d : Draft) (time : Int64) (actor : Id) : Except Error Draft := do
  let quota ← d.quota.reset.take headLength
  return { quota, time, actor, blocks := [], deleted := none }

def create (capacity pageSize : Nat) : Except Error Draft := do
  let quota ← Quota.create capacity pageSize
  start ⟨quota, 0, Id.nil, [], none⟩ 0 Id.nil

def isEmpty (d : Draft) : Bool := d.blocks.isEmpty

def touched (d : Draft) : List Id := (d.blocks.map Block.object).reverse

def bytes (d : Draft) : Bytes :=
  magic ++ Bytes.littleEndian 2 version ++ [0, 0] ++
    Bytes.littleEndian 8 d.time.toUInt64.toNat ++ d.actor.bytes ++
    Bytes.littleEndian 4 d.blocks.length ++
    Bytes.littleEndian 4 (if d.blocks.isEmpty then 0 else headLength) ++
    Block.encodeAll headLength d.blocks.reverse

def modifyBlock (f : Block → Block) (d : Draft) : Draft :=
  { d with blocks := d.blocks.modifyHead f }

def push (i : Item) : Draft → Draft :=
  modifyBlock fun b => { b with items := i :: b.items }

def replaceLast (i : Item) : Draft → Draft :=
  modifyBlock fun b => { b with items := i :: b.items.tail }

def take (length : Nat) : Drafting Unit := do
  let d ← get
  let quota ← ofExcept (d.quota.take length)
  set { d with quota }

def openBlock (object : Id) : Drafting Unit := do
  unless (← get).blocks.head?.map Block.object = some object do
    take Block.headLength
    modify fun d => { d with blocks := ⟨object, Id.nil, []⟩ :: d.blocks }

def add (object : Id) (e : Event) : Drafting Unit := do
  openBlock object
  take (Event.headLength + e.bodyLength)
  modify (push ⟨e, []⟩)

def addObjectEvent (object : Id) (e : Event) (type : Id) : Drafting Unit := do
  add object e
  modify (modifyBlock fun b => { b with type })

/-- The payloads are charged after the event, which stays blank until both have found room. -/
def addChange (object field : Id) (old new : Bytes) : Drafting Unit := do
  add object (.changed Id.nil [] [])
  take old.length
  modify (replaceLast ⟨.changed Id.nil [] [], old⟩)
  take new.length
  modify (replaceLast ⟨.changed field old new, []⟩)

def readType (value : Option Bytes) : Except Error (Option Id) :=
  match value with
  | none => .ok none
  | some v =>
    match Id.ofBytes? v with
    | some type => .ok (some type)
    | none => .error (.corrupted .untypedObject)

def observeObject (object : Id) (c : Change) : Drafting Unit := do
  match ← ofExcept (readType c.old), ← ofExcept (readType c.new) with
  | none, some type => addObjectEvent object (.created type) type
  | some type, none =>
    addObjectEvent object (.deleted type) type
    modify ({ · with deleted := some object })
  | some before, some after =>
    unless before = after do
      addObjectEvent object (.deleted before) before
      addObjectEvent object (.created after) after
  | none, none => pure ()

def observeAssociation (h : Half) (c : Change) : Drafting Unit :=
  match c.old, c.new with
  | none, some _ => add h.object (.linked h.field h.other h.otherField)
  | some _, none => add h.object (.unlinked h.field h.other h.otherField)
  | _, _ => pure ()

/-- What an object's deletion removes with it, and what leaves a value as it was, is no event. -/
def observe : Observer Draft := fun c =>
  match Key.ofBytes? c.key with
  | none => throw (.corrupted (.keyLength c.key.length))
  | some (.object a) => observeObject a c
  | some (.field a f) => do
    unless c.new.isNone ∧ (← get).deleted = some a ∨ c.IsNoop do
      addChange a f (c.old.getD []) (c.new.getD [])
  | some (.association h) => do
    unless c.new.isNone ∧ (← get).deleted = some h.object ∨ c.IsNoop do
      observeAssociation h c

def untyped (d : Draft) : List Id :=
  (d.blocks.filter (·.type = Id.nil)).reverse.map Block.object

def resolveBlocks {σ : Type} (lookup : TypeLookup σ) :
    List Block → σ → Except Error Unit × List Block × σ
  | [], s => (.ok (), [], s)
  | b :: rest, s =>
    match (b.resolve lookup).run s with
    | (.error e, s) => (.error e, b :: rest, s)
    | (.ok b, s) =>
      let (result, rest, s) := resolveBlocks lookup rest s
      (result, b :: rest, s)

def resolve {σ : Type} (lookup : TypeLookup σ) : ExceptT Error (StateM (Draft × σ)) Unit :=
  ExceptT.mk fun (d, s) =>
    let (result, blocks, s) := resolveBlocks lookup d.blocks.reverse s
    (result, { d with blocks := blocks.reverse }, s)

def resolveTypes (lookup : Id → Except Error (Option Id)) : Drafting Unit :=
  ExceptT.mk fun d =>
    let (result, d, _) := (resolve fun a => ofExcept (lookup a)).run (d, ())
    (result, d)

end Draft

end ObjectGraph

import ObjectGraph.Id
/-!
Keys of the object table. An object's key is its identifier; the keys of its field values and of its
association halves extend it, so that all records of one owner lie together.
-/

namespace ObjectGraph

/-- One direction of an edge: `object` sees `other` through `field`, and is seen through `otherField`. -/
structure Half where
  object : Id
  field : Id
  other : Id
  otherField : Id
deriving DecidableEq

namespace Half

def mirror (h : Half) : Half := ⟨h.other, h.otherField, h.object, h.field⟩

def bytes (h : Half) : Bytes :=
  h.object.bytes ++ h.field.bytes ++ h.other.bytes ++ h.otherField.bytes

end Half

inductive Key where
  | object (object : Id)
  | field (object field : Id)
  | association (half : Half)
deriving DecidableEq

namespace Key

def bytes : Key → Bytes
  | object a => a.bytes
  | field a f => a.bytes ++ f.bytes
  | association h => h.bytes

def owner : Key → Id
  | object a => a
  | field a _ => a
  | association h => h.object

def ofBytes? (bs : Bytes) : Option Key :=
  if bs.length = 16 then (Id.readAt? bs 0).map object
  else if bs.length = 32 then do return field (← Id.readAt? bs 0) (← Id.readAt? bs 16)
  else if bs.length = 64 then do
    return association
      ⟨← Id.readAt? bs 0, ← Id.readAt? bs 16, ← Id.readAt? bs 32, ← Id.readAt? bs 48⟩
  else none

def mirror? (bs : Bytes) : Option Bytes :=
  match ofBytes? bs with
  | some (association h) => some h.mirror.bytes
  | _ => none

def owner? (bs : Bytes) : Option Id := Id.readAt? bs 0

def afterOwner? (a : Id) : Option Bytes := a.next?.map Id.bytes

end Key

end ObjectGraph

import ObjectGraph.Error
import ObjectGraph.Ordered.Dictionary
/-!
Types with single inheritance, and the fields that objects of a type may have. Definitions refer to
each other by identifier only, so they may be added before what they refer to; `validate` checks the
references of a finished schema.
-/

namespace ObjectGraph

structure TypeDef where
  id : Id
  name : String
  parent : Option Id := none
deriving DecidableEq

structure Pairing where
  other : Id
  multi : Bool
deriving DecidableEq

structure FieldDef where
  id : Id
  name : String
  owner : Id
  type : DataType
  indexed : Bool := false
  pairing : Option Pairing := none
deriving DecidableEq

structure Schema where
  types : List (Id × TypeDef)
  fields : List (Id × FieldDef)
deriving DecidableEq

namespace Builtin

def typeDef : Id := Id.ofNat 0x1

def fieldDef : Id := Id.ofNat 0x2

def typeName : Id := Id.ofNat 0x101

def typeParent : Id := Id.ofNat 0x102

def fieldName : Id := Id.ofNat 0x201

def fieldOwner : Id := Id.ofNat 0x202

def fieldType : Id := Id.ofNat 0x203

def fieldIndexed : Id := Id.ofNat 0x204

def fieldOther : Id := Id.ofNat 0x205

def fieldMulti : Id := Id.ofNat 0x206

def types : List TypeDef := [⟨typeDef, "TypeDef", none⟩, ⟨fieldDef, "FieldDef", none⟩]

def fields : List FieldDef :=
  [{ id := typeName, name := "name", owner := typeDef, type := .string },
    { id := typeParent, name := "parent", owner := typeDef, type := .id },
    { id := fieldName, name := "name", owner := fieldDef, type := .string },
    { id := fieldOwner, name := "owner", owner := fieldDef, type := .id },
    { id := fieldType, name := "dataType", owner := fieldDef, type := .enum },
    { id := fieldIndexed, name := "indexed", owner := fieldDef, type := .boolean },
    { id := fieldOther, name := "otherField", owner := fieldDef, type := .id },
    { id := fieldMulti, name := "multi", owner := fieldDef, type := .boolean }]

def IsReserved (id : Id) : Prop := id.toNat < 0x1000

instance (id : Id) : Decidable (IsReserved id) := inferInstanceAs (Decidable (_ < _))

end Builtin

namespace Schema

def type? (s : Schema) (id : Id) : Option TypeDef := Dictionary.get? compare id s.types

def field? (s : Schema) (id : Id) : Option FieldDef := Dictionary.get? compare id s.fields

def withType (s : Schema) (d : TypeDef) : Schema :=
  { s with types := Dictionary.insert compare d.id d s.types }

def withField (s : Schema) (d : FieldDef) : Schema :=
  { s with fields := Dictionary.insert compare d.id d s.fields }

def builtin : Schema := Builtin.fields.foldl withField (Builtin.types.foldl withType ⟨[], []⟩)

def ownTypes (s : Schema) : List TypeDef :=
  (s.types.map Prod.snd).filter fun d => ¬ Builtin.IsReserved d.id

def ownFields (s : Schema) : List FieldDef :=
  (s.fields.map Prod.snd).filter fun d => ¬ Builtin.IsReserved d.id

def checkNew (s : Schema) (id : Id) : Except Error Unit :=
  if Builtin.IsReserved id then .error (.invalidArgument (.reservedId id))
  else if (s.type? id).isSome ∨ (s.field? id).isSome then
    .error (.invalidArgument (.duplicateId id))
  else .ok ()

def addType (s : Schema) (d : TypeDef) : Except Error Schema := do
  s.checkNew d.id
  return s.withType d

def addField (s : Schema) (d : FieldDef) : Except Error Schema := do
  s.checkNew d.id
  if (s.type? d.owner).isNone then throw (.unknownType d.owner)
  if d.type.IsScalar ↔ d.pairing.isSome then throw (.typeMismatch d.id .associationDefinition)
  return s.withField d

/-- Follows parent links to a root: none may lead nowhere, and there may not be more than `steps`. -/
def checkAncestry (s : Schema) : (steps : Nat) → (parent : Option Id) → Except Error Unit
  | _, none => .ok ()
  | steps, some p =>
    match s.type? p with
    | none => .error (.unknownType p)
    | some d =>
      match steps with
      | 0 => .error (.invalidArgument .inheritanceCycle)
      | steps + 1 => s.checkAncestry steps d.parent

def checkPairing (s : Schema) (d : FieldDef) : Except Error Unit :=
  match d.pairing with
  | none => .ok ()
  | some p =>
    match s.field? p.other with
    | none => .error (.typeMismatch d.id (.undefinedMirror p.other))
    | some other =>
      if other.pairing.map Pairing.other = some d.id then .ok ()
      else .error (.typeMismatch d.id (.unreturnedMirror other.id))

def validateAlong (s : Schema) (types : List (Id × TypeDef)) (fields : List (Id × FieldDef)) :
    Except Error Unit := do
  types.forM fun d => s.checkAncestry s.types.length d.2.parent
  fields.forM fun d => s.checkPairing d.2

def validate (s : Schema) : Except Error Unit := s.validateAlong s.types s.fields

def reaches (s : Schema) (ancestor : Id) : (steps : Nat) → (type : Id) → Bool
  | 0, t => t = ancestor
  | steps + 1, t =>
    t = ancestor || ((s.type? t).bind TypeDef.parent).any (s.reaches ancestor steps)

def isA (s : Schema) (type ancestor : Id) : Bool := s.reaches ancestor s.types.length type

def fieldOn (s : Schema) (type field : Id) : Except Error FieldDef :=
  if (s.type? type).isNone then .error (.unknownType type)
  else
    match s.field? field with
    | some d => if s.isA type d.owner then .ok d else .error (.unknownField type field)
    | none => .error (.unknownField type field)

def isIndexed (s : Schema) (field : Id) : Bool := (s.field? field).any FieldDef.indexed

end Schema

end ObjectGraph

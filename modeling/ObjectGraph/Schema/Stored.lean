import ObjectGraph.Session.Objects

namespace ObjectGraph

namespace Schema

def ensureObject (type object : Id) : Editing Unit := do
  match ← Editing.ask (·.type? object) with
  | none => Editing.create type object
  | some found =>
    unless found = type do
      discard <| Editing.delete object
      Editing.create type object

def setPart (object field : Id) (v : Option Value) : Editing Unit :=
  Editing.setValue object field ((v.map Value.encode).getD [])

def storeType (d : TypeDef) : Editing Unit := do
  ensureObject Builtin.typeDef d.id
  setPart d.id Builtin.typeName (some (.string d.name))
  setPart d.id Builtin.typeParent (d.parent.map .id)

def storeField (d : FieldDef) : Editing Unit := do
  ensureObject Builtin.fieldDef d.id
  setPart d.id Builtin.fieldName (some (.string d.name))
  setPart d.id Builtin.fieldOwner (some (.id d.owner))
  setPart d.id Builtin.fieldType (some (.enum d.type.tag.toUInt32))
  setPart d.id Builtin.fieldIndexed (some (.boolean d.indexed))
  setPart d.id Builtin.fieldOther (d.pairing.map fun p => .id p.other)
  setPart d.id Builtin.fieldMulti (d.pairing.map fun p => .boolean p.multi)

def store (s : Schema) : Editing Unit := do
  s.ownTypes.forM storeType
  s.ownFields.forM storeField

end Schema

namespace Session

def part (s : Session) (object field : Id) : Except Error (Option Value) := do
  match Value.decode (← s.value object field) with
  | .error cause => throw (.corrupted cause)
  | .ok v => return v

def misplaced (expected : DataType) (object field : Id) (found : Value) : Error :=
  .corrupted (.schemaValue expected field object found.type)

def readText (s : Session) (object field : Id) : Except Error String := do
  match ← s.part object field with
  | none => return ""
  | some (.string text) => return text
  | some v => throw (misplaced .string object field v)

def readId? (s : Session) (object field : Id) : Except Error (Option Id) := do
  match ← s.part object field with
  | none => return none
  | some (.id i) => return if i = Id.nil then none else some i
  | some v => throw (misplaced .id object field v)

def readFlag (s : Session) (object field : Id) : Except Error Bool := do
  match ← s.part object field with
  | none => return false
  | some (.boolean b) => return b
  | some v => throw (misplaced .boolean object field v)

def readDataType? (s : Session) (object field : Id) : Except Error (Option DataType) := do
  match ← s.part object field with
  | some (.enum n) => return if n < 256 then DataType.ofTag? n.toUInt8 else none
  | _ => return none

def readType (s : Session) (object : Id) : Except Error TypeDef := do
  let name ← s.readText object Builtin.typeName
  let parent ← s.readId? object Builtin.typeParent
  return ⟨object, name, parent⟩

def readPairing (s : Session) (object : Id) : Except Error (Option Pairing) := do
  match ← s.readId? object Builtin.fieldOther with
  | none => return none
  | some other => return some ⟨other, ← s.readFlag object Builtin.fieldMulti⟩

def readField (s : Session) (object : Id) : Except Error FieldDef := do
  let name ← s.readText object Builtin.fieldName
  let some owner ← s.readId? object Builtin.fieldOwner
    | throw (.corrupted (.fieldWithoutOwner object))
  let some type ← s.readDataType? object Builtin.fieldType
    | throw (.corrupted (.fieldWithoutType object))
  let indexed ← s.readFlag object Builtin.fieldIndexed
  let pairing ← s.readPairing object
  return { id := object, name, owner, type, indexed, pairing }

def storedSchema (s : Session) : Except Error Schema := do
  let types ← (← s.objects Builtin.typeDef).mapM s.readType
  let fields ← (← s.objects Builtin.fieldDef).mapM s.readField
  let schema := fields.foldl Schema.withField (types.foldl Schema.withType Schema.builtin)
  schema.validate
  return schema

end Session

end ObjectGraph

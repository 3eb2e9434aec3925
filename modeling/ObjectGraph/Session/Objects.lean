import ObjectGraph.Session.Basic

namespace ObjectGraph

def entryIsA (schema : Schema) (type owner : Id) (e : Entry) : Except Error Bool := do
  if e.1.length = 16 then return schema.isA (← recordedType owner e.2) type
  else return false

/-- The objects of a type among all visible entries. Of each owner only the first entry is looked
at, since the entry of an object comes before all others that it owns. -/
def objectsAmong (schema : Schema) (type : Id) : List Entry → Except Error (List Id)
  | [] => .ok []
  | e :: rest =>
    match Key.owner? e.1 with
    | none => .error (.corrupted (.keyLength e.1.length))
    | some owner => do
      let found := if ← entryIsA schema type owner e then [owner] else []
      match Key.afterOwner? owner with
      | none => return found
      | some next =>
        return found ++ (← objectsAmong schema type (rest.dropWhile (compare ·.1 next = .lt)))
termination_by entries => entries.length
decreasing_by exact Nat.lt_succ_of_le (List.dropWhile_suffix _).length_le

def FieldDef.checkValue (d : FieldDef) (raw : Bytes) : Except Error Unit :=
  match Value.decode raw with
  | .error cause => .error (.typeMismatch d.id (.undecodable cause))
  | .ok none => .ok ()
  | .ok (some v) =>
    if v.type = d.type then .ok () else .error (.typeMismatch d.id (.valueType d.type v.type))

namespace Session

def objects (s : Session) (type : Id) : Except Error (List Id) :=
  if (s.catalog.schema.type? type).isNone then .error (.unknownType type)
  else objectsAmong s.catalog.schema type s.workspace.entries

def scalarField (s : Session) (type field : Id) : Except Error FieldDef := do
  let d ← s.catalog.schema.fieldOn type field
  if d.type.IsScalar then return d
  else throw (.typeMismatch field .holdsNoValue)

def value (s : Session) (object field : Id) : Except Error Bytes := do
  match ← s.type? object with
  | none => return []
  | some type =>
    let _ ← s.scalarField type field
    return (s.get? (.field object field)).getD []

end Session

namespace Editing

def create (type object : Id) : Editing Unit := do
  requireWritable
  let s ← get
  if (s.catalog.schema.type? type).isNone then throw (.unknownType type)
  if object = Id.nil then throw (.invalidArgument .nilObject)
  if s.contains (.object object) then throw (.objectExists object)
  put (.object object) type.bytes

def createRandom (type bits : Id) : Editing Id := do
  create type bits.ofRandom
  return bits.ofRandom

def delete (object : Id) : Editing Bool := do
  requireWritable
  let s ← get
  if s.contains (.object object) then
    let owned := (s.workspace.extending object.bytes).map Prod.fst
    owned.forM erase
    -- the other halves of its edges lie with other objects
    (owned.filterMap Key.mirror?).forM erase
    return true
  else return false

def setValue (object field : Id) (raw : Bytes) : Editing Unit := do
  requireWritable
  let type ← ask (·.typeOf object)
  let d ← ask (·.scalarField type field)
  ofExcept (d.checkValue raw)
  if raw.isEmpty then erase (Key.field object field).bytes
  else put (.field object field) raw

end Editing

end ObjectGraph

import ObjectGraph.Session.Objects

namespace ObjectGraph

namespace Session

def pairing (s : Session) (type field : Id) : Except Error Pairing := do
  match (← s.catalog.schema.fieldOn type field).pairing with
  | none => throw (.typeMismatch field .notAssociation)
  | some p => return p

def halves (s : Session) (object field : Id) : List Half :=
  (s.workspace.extending (Key.field object field).bytes).filterMap fun e =>
    match Key.ofBytes? e.1 with
    | some (.association h) => some h
    | _ => none

def links (s : Session) (object field : Id) : Except Error (List Half) := do
  match ← s.type? object with
  | none => return []
  | some type =>
    let _ ← s.pairing type field
    return s.halves object field

def partners (s : Session) (object field : Id) : Except Error (List Id) := do
  return (← s.links object field).map Half.other

def partner? (s : Session) (object field : Id) : Except Error (Option Id) := do
  return (← s.partners object field).head?

end Session

namespace Editing

def eraseEdge (h : Half) : Editing Unit := do
  erase h.bytes
  erase h.mirror.bytes

def unlinkAll (object field : Id) : Editing Nat := do
  requireWritable
  let links ← ask (·.links object field)
  links.forM eraseEdge
  return links.length

def unlink (h : Half) : Editing Bool := do
  requireWritable
  if (← get).contains (.association h) then
    eraseEdge h
    return true
  else return false

def link (h : Half) : Editing Unit := do
  requireWritable
  let near ← ask fun s => do s.pairing (← s.typeOf h.object) h.field
  let far ← ask fun s => do s.pairing (← s.typeOf h.other) h.otherField
  if near.other ≠ h.otherField ∨ far.other ≠ h.field then
    throw (.typeMismatch h.field (.unpaired h.field h.otherField))
  unless (← get).contains (.association h) do
    unless near.multi do discard <| unlinkAll h.object h.field
    unless far.multi do discard <| unlinkAll h.other h.otherField
    put (.association h) []
    put (.association h.mirror) []

end Editing

end ObjectGraph

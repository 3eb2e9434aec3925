import ObjectGraph.Session.Objects
/-!
The objects of a type by a loop that seeks one merged cursor past each owner in turn. The loop is given by
its steps: no count of what is left goes down with each of them unless the cursor visits keys in order.
-/

namespace ObjectGraph

inductive Scan where
  | ahead (cursor : MergedCursor) (found : List Id)
  | done (outcome : Except Error (List Id))

def Scan.step (schema : Schema) (type : Id) : Scan → Scan
  | done outcome => done outcome
  | ahead c found =>
    match c.current? with
    | none => done (.ok found)
    | some e =>
      match Key.owner? e.1 with
      | none => done (.error (.corrupted (.keyLength e.1.length)))
      | some owner =>
        match entryIsA schema type owner e with
        | .error cause => done (.error cause)
        | .ok isA =>
          let found := if isA then found ++ [owner] else found
          match Key.afterOwner? owner with
          | none => done (.ok found)
          | some next => ahead (c.seek next) found

def Session.scan (s : Session) (type : Id) : Scan :=
  if (s.catalog.schema.type? type).isNone then .done (.error (.unknownType type))
  else .ahead s.workspace.cursor.seekFirst []

end ObjectGraph

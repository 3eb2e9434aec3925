import ObjectGraph.Config
import ObjectGraph.Schema.Basic
import ObjectGraph.Tables

namespace ObjectGraph

structure Catalog where
  tables : Tables
  schema : Schema
  config : Config

def Catalog.indexedField (c : Catalog) (field : Id) : Except Error FieldDef :=
  match c.schema.field? field with
  | none => .error (.invalidArgument (.undefinedField field))
  | some d => if d.indexed then .ok d else .error (.invalidArgument (.unindexedField field))

end ObjectGraph

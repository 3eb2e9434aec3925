import ObjectGraph.Database.Work
import ObjectGraph.Schema.Stored

namespace ObjectGraph.Database

def create (store : Store) (schema : Schema) (config : Config) (stamp : Stamp) :
    Except Error Database := do
  schema.validate
  let (tables, store) ← store.openTables
  let db ← resume ⟨⟨tables, schema, config⟩, store, {}⟩
  let (result, db) := db.transaction stamp (Working.edit schema.store)
  result
  return db

def ofStore (store : Store) (config : Config) : Except Error Database := do
  let (tables, store) ← store.openTables
  let db : Database := ⟨⟨tables, Schema.builtin, config⟩, store, {}⟩
  let schema ← (← db.session false).storedSchema
  resume { db with catalog := { db.catalog with schema } }

end ObjectGraph.Database

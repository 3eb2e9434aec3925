import ObjectGraph.Proofs.Database.Moves
import ObjectGraph.Proofs.Database.Recreation

namespace ObjectGraph

open Dictionary (Ascending)

def Database.definitions (db : Database) : List Entry :=
  db.objects.filter fun e =>
    match Key.ofBytes? e.1 with
    | some (.object a) | some (.field a _) =>
      ∃ kind ∈ [Builtin.typeDef, Builtin.fieldDef], recorded db.objects (.object a) = some kind.bytes
    | some (.association _) | none => false

namespace Database

variable {db db' : Database} {a field kind : Id}

theorem mem_definitions_object (hdb : Ascending KeyOrder.lexicographic db.objects)
    (hkind : kind ∈ [Builtin.typeDef, Builtin.fieldDef]) :
    ((Key.object a).bytes, kind.bytes) ∈ db.definitions ↔ recorded db.objects (.object a) = some kind.bytes := by
  simp only [definitions, List.mem_filter, Key.ofBytes?_bytes, decide_eq_true_iff,
    ← recorded_eq_some_iff hdb, and_iff_left_iff_imp]
  exact fun h => ⟨kind, hkind, h⟩

theorem mem_definitions_field (hdb : Ascending KeyOrder.lexicographic db.objects)
    (hkind : kind ∈ [Builtin.typeDef, Builtin.fieldDef])
    (ha : recorded db.objects (.object a) = some kind.bytes) {v : Bytes} :
    ((Key.field a field).bytes, v) ∈ db.definitions ↔ recorded db.objects (.field a field) = some v := by
  simp only [definitions, List.mem_filter, Key.ofBytes?_bytes, decide_eq_true_iff,
    ← recorded_eq_some_iff hdb, and_iff_left_iff_imp]
  exact fun _ => ⟨kind, hkind, ha⟩

theorem object_iff_of_definitions (hdb : Ascending KeyOrder.lexicographic db.objects)
    (hdb' : Ascending KeyOrder.lexicographic db'.objects) (hkept : db'.definitions = db.definitions)
    (hkind : kind ∈ [Builtin.typeDef, Builtin.fieldDef]) :
    recorded db'.objects (.object a) = some kind.bytes ↔ recorded db.objects (.object a) = some kind.bytes := by
  rw [← mem_definitions_object hdb' hkind, hkept, mem_definitions_object hdb hkind]

theorem field_eq_of_definitions (hdb : Ascending KeyOrder.lexicographic db.objects)
    (hdb' : Ascending KeyOrder.lexicographic db'.objects) (hkept : db'.definitions = db.definitions)
    (hkind : kind ∈ [Builtin.typeDef, Builtin.fieldDef])
    (ha : recorded db.objects (.object a) = some kind.bytes) (field : Id) :
    recorded db'.objects (.field a field) = recorded db.objects (.field a field) := by
  have ha' := (object_iff_of_definitions hdb hdb' hkept hkind).mpr ha
  apply Option.ext
  intro v
  rw [← mem_definitions_field hdb' hkind ha', hkept, mem_definitions_field hdb hkind ha]

theorem defines_of_definitions {f : Id → Option Definition} (h : (recorded db.objects).Defines f)
    (hdb : Ascending KeyOrder.lexicographic db.objects) (hdb' : Ascending KeyOrder.lexicographic db'.objects)
    (htyped : ∀ a v, recorded db'.objects (.object a) = some v → ∃ type : Id, v = type.bytes)
    (hkept : db'.definitions = db.definitions) : (recorded db'.objects).Defines f where
  kind_iff a kind hkind := by
    rw [← h.kind_iff a kind hkind, object_iff_of_definitions hdb hdb' hkept hkind]
  part_eq a d hd p hp := by
    have hkind : recorded db.objects (.object a) = some d.kind.bytes :=
      (h.kind_iff a _ d.kind_mem).mpr ⟨d, hd, rfl⟩
    rw [← h.part_eq a d hd p hp, field_eq_of_definitions hdb hdb' hkept d.kind_mem hkind]
  typed := htyped

theorem catalog_of_create {mapSize : Nat} {schema : Schema} {config : Config} {stamp : Stamp}
    (h : create (Store.empty mapSize) schema config stamp = .ok db) :
    config.pageSize ≠ 0 ∧ db.catalog = ⟨⟨0, 1, 2, 3⟩, schema, config⟩ := by
  obtain ⟨s, w, c, w', hs, hstore, hcommit, rfl⟩ := create_eq_ok h
  refine ⟨Session.pageSize_ne_zero hs, ?_⟩
  rw [Working.edit_run] at hstore
  obtain ⟨-, rfl⟩ := Prod.mk.inj hstore
  exact Working.catalog_of_commits (Working.commits_of_run hcommit)

theorem keeps_of_create {mapSize : Nat} {schema : Schema} {config : Config} {stamp : Stamp}
    (hbuilt : schema.Built) (h : create (Store.empty mapSize) schema config stamp = .ok db) :
    schema.validate = .ok ⟨⟩ ∧ db.store.Keeps schema := by
  obtain ⟨opened, hopen, hkeeps⟩ := Store.Keeps.empty mapSize
  have hoverlay : Schema.builtin.overlay schema = schema := by
    apply Schema.Lawful.builtin.overlay_eq_right hbuilt.lawful
    intro a ha
    rw [Schema.Lawful.builtin.mem_identifiers, Schema.definition?_builtin] at ha
    contradiction
  have hkept := hkeeps.create .builtin hbuilt.lawful hopen h
  rw [hoverlay] at hkept
  exact ⟨(create_over_eq_ok hopen h).1, hkept⟩

end Database

namespace System

structure Tabled (schema : Schema) (config : Config) (s : System) : Prop where
  orderly : s.Orderly schema config
  catalog_eq : s.database.catalog = ⟨⟨0, 1, 2, 3⟩, schema, config⟩
  store : s.database.store.Tabled

variable {schema : Schema} {config : Config} {s s' : System}

theorem Tabled.moves {result : Except Error Unit} (h : s.Tabled schema config) (hmove : s.Moves result s') :
    s'.Tabled schema config := by
  obtain ⟨horderly, hcatalog⟩ := h.orderly.moves hmove
  refine ⟨horderly, hcatalog.trans h.catalog_eq, ?_⟩
  cases hmove with
  | apart _ => exact h.store
  | @called call session result w sessions hsession hrun _ =>
    cases call with
    | edit edit =>
      obtain ⟨t, -, rfl⟩ := Working.of_edit_run hrun
      exact h.store
    | commit stamp =>
      obtain ⟨committed, hcommits, -⟩ := Working.of_commit_run hrun
      apply Store.Tabled.of_commits h.store _ hcommits
      rw [(h.orderly.sessions _ hsession).catalog_eq, h.catalog_eq]
  | rebuilt hrebuild =>
    obtain ⟨x, hrun, rfl⟩ := Database.exists_of_rebuildSearch hrebuild
    obtain ⟨history, hhistory, hkeys⟩ := h.store.history
    have hframe := Rebuild.frame_of_run hrun
    rw [h.catalog_eq] at hframe
    exact ⟨hframe.names_eq.trans h.store.names, history,
      (hframe.getElem?_eq 1 nofun).trans hhistory, hkeys⟩

theorem Tabled.describes (h : s.Tabled schema config) {db : Database} (hkeeps : db.store.Keeps schema)
    (htables : db.catalog.tables = ⟨0, 1, 2, 3⟩) (hkept : s.database.definitions = db.definitions) :
    s.database.store.Describes schema := by
  obtain ⟨base, hcommitted, hbase, -, hrecords⟩ := hkeeps.objects
  obtain ⟨table, hcommitted', htable, hadmitted⟩ := h.orderly.database.objects
  have hobjects : db.objects = base.entries := by
    apply Database.objects_eq
    rw [htables]
    exact hcommitted
  have hobjects' : s.database.objects = table.entries := Database.objects_eq hcommitted'
  have hdefines : (recorded s.database.objects).Defines schema.definition? := by
    apply Database.defines_of_definitions _ _ _ _ hkept
    · rw [hobjects, hrecords]
      exact Graph.defines_ofDefinitions schema.definition?
    · rw [hobjects]
      exact hbase.ascending
    · rw [hobjects']
      exact htable.ascending
    · -- no session stores an object without a type
      intro a v hv
      rw [hobjects', recorded_eq_some_iff htable.ascending] at hv
      obtain ⟨type, rfl, -⟩ := hadmitted.of_mem hv
      exact ⟨type, rfl⟩
  rw [h.catalog_eq] at hcommitted'
  rw [hobjects'] at hdefines
  refine ⟨h.store, table, hcommitted', htable, fun e he => ?_, hdefines⟩
  obtain ⟨k, hk, -⟩ := hadmitted e he
  exact ⟨k, hk⟩

/-- A store is opened with the schema that it was created with, whatever was done through any sessions on
it, if the committed definitions are as they were. So they are if no commit creates, deletes or changes any. -/
theorem schema_reopened {mapSize : Nat} {stamp : Stamp} {db : Database} (hbuilt : schema.Built)
    (hcreate : Database.create (Store.empty mapSize) schema config stamp = .ok db) {steps : List Step}
    (hkept : ((System.mk db []).run steps).2.database.definitions = db.definitions) :
    ∃ db', Database.ofStore ((System.mk db []).run steps).2.database.store config = .ok db' ∧
      db'.catalog.schema = schema := by
  obtain ⟨hvalid, hkeeps⟩ := Database.keeps_of_create hbuilt hcreate
  obtain ⟨hpage, hcatalog⟩ := Database.catalog_of_create hcreate
  have hfirst : (System.mk db []).Tabled schema config :=
    ⟨⟨Database.orderly_of_create hcreate, nofun⟩, hcatalog, hkeeps.tabled⟩
  have htabled : ((System.mk db []).run steps).2.Tabled schema config :=
    run_invariant (E := fun _ => False) (fun _ _ _ hs hmove _ => hs.moves hmove) hfirst (fun _ _ h => h) steps
      List.prefix_rfl
  have hdescribes := htabled.describes hkeeps (congrArg Catalog.tables hcatalog) hkept
  have hopened := hdescribes.ofStore_eq hbuilt.lawful (hbuilt.proper hvalid)
    (Database.openTables_eq htabled.store.names) config
  rw [if_neg hpage, hvalid] at hopened
  obtain ⟨db', hdb', hschema⟩ := Stateful.map_eq_ok.mp hopened
  exact ⟨db', hdb', hschema⟩

end System

def Schema.assorted : Schema :=
  ((peers.withType { id := Id.ofNat 0x2000, name := "", parent := some Builtin.typeDef }).withType
      { id := Id.ofNat 0x2001, name := "ключ 𝄞", parent := some (Id.ofNat 0x2000) }).withField
    { id := Id.ofNat 0x2002, name := "", owner := Builtin.fieldDef, type := .string }

theorem Schema.built_assorted : assorted.Built :=
  ((built_peers.withType rfl).withType rfl).withField rfl rfl (by decide)

namespace System

def settlement : List Step :=
  let a := Id.ofNat 1
  let peer := Id.ofNat 0x1001
  [.opened true, .called 0 (.edit (.create (Id.ofNat 0x1000) a)), .called 0 (.edit (.link ⟨a, peer, a, peer⟩)),
    .called 0 (.commit ⟨0, 0⟩), .opened true, .called 0 (.edit (.create (Id.ofNat 0x2001) (Id.ofNat 2))),
    .called 0 (.edit (.create (Id.ofNat 0x2001) a)), .called 0 (.commit ⟨0, 0⟩), .closed 0]

theorem schema_reopened_assorted :
    ∃ db, Database.create (Store.empty 10000) .assorted {} ⟨0, 0⟩ = .ok db ∧
      let s := ((System.mk db []).run settlement).2
      s.database.definitions = db.definitions ∧ db.definitions.length = 20 ∧ s.database.objects.length = 23 ∧
        ∃ db', Database.ofStore s.database.store {} = .ok db' ∧ db'.catalog.schema = .assorted := by
  have hscript : ((Database.create (Store.empty 10000) .assorted {} ⟨0, 0⟩).toOption.map fun db =>
      let s := ((System.mk db []).run settlement).2
      (decide (s.database.definitions = db.definitions), db.definitions.length, s.database.objects.length)) =
      some (true, 20, 23) := by decide +kernel
  obtain ⟨db, hdb, hend⟩ := Option.map_eq_some_iff.mp hscript
  simp only [Prod.mk.injEq, decide_eq_true_iff] at hend
  obtain ⟨hkept, hdefinitions, hobjects⟩ := hend
  have hcreate := Stateful.ok_of_toOption hdb
  exact ⟨db, hcreate, hkept, hdefinitions, hobjects, schema_reopened Schema.built_assorted hcreate hkept⟩

end System

end ObjectGraph

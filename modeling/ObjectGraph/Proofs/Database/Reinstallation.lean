import ObjectGraph.Proofs.Database.Counterparts
import ObjectGraph.Proofs.Database.Reopening
import ObjectGraph.Proofs.Database.Tables
import ObjectGraph.Proofs.Session.Noops

namespace ObjectGraph

open Stateful

/-- What becomes of a database as sessions work on it, its store is opened again, and schemas are installed over
it. -/
inductive Database.Continues (db : Database) : System → Prop where
  | start : Continues db ⟨db, []⟩
  | stepped {s : System} (step : Step) : Continues db s → Continues db (step.perform s).2
  | reopened {s : System} {config : Config} {db' : Database} :
      Continues db s → Database.ofStore s.database.store config = .ok db' → Continues db ⟨db', []⟩
  | installed {s : System} {schema : Schema} {config : Config} {stamp : Stamp} {db' : Database} :
      Continues db s → Database.create s.database.store schema config stamp = .ok db' → Continues db ⟨db', []⟩

structure Session.Stores (base : Table) (schema : Schema) (s s' : Session) : Prop where
  valid : s.workspace.Valid KeyOrder.lexicographic
  base_eq : s.workspace.base = base
  unstaged : s.workspace.overlay.entries = []
  run_eq : schema.store.run s = (.ok ⟨⟩, s')

namespace Session.Stores

variable {base : Table} {schema : Schema} {s s' : Session}

theorem pinned (h : s.Stores base schema s') : s'.catalog = s.catalog ∧ s'.workspace.base = base :=
  (Schema.keeps_store (Editing.closed_pinned _ _) schema).of_run ⟨rfl, h.base_eq⟩ h.run_eq

theorem tells (h : s.Stores base schema s') (hschema : schema.Lawful) :
    s'.workspace.Valid KeyOrder.lexicographic ∧ ∀ d ∈ schema.own, (recorded s'.workspace.view).Tells d := by
  have hrun := h.run_eq
  rw [Schema.store_eq] at hrun
  obtain ⟨g, hg, hadopts⟩ := (Schema.yields_storeDefinitions hschema.nodup_own _).ok ⟨h.valid, rfl⟩ hrun
  exact ⟨hg.valid, hg.records_eq ▸ hadopts.tells⟩

theorem idle (h : s.Stores base schema s') (htells : ∀ d ∈ schema.own, (recorded base.entries).Tells d) :
    s'.Idle base := by
  have hstart : s.Idle base := by
    refine ⟨h.valid, h.base_eq, fun k v hv => ?_⟩
    rw [h.valid.overlay.get?_eq, h.unstaged] at hv
    contradiction
  exact (Schema.keeps_idle_store (h.base_eq ▸ h.valid.base) htells).of_run hstart h.run_eq

end Session.Stores

namespace Working

variable {w w' : Work} {stamp : Stamp}

theorem objects_of_commits {c : Option CommitId} (h : Commits stamp w (.ok c) w')
    (hvalid : w.session.workspace.Valid KeyOrder.lexicographic)
    (htables : w.session.catalog.tables = w.database.catalog.tables) (hdistinct : w.database.catalog.tables.Distinct)
    (hbase : w.database.store.committed.tables[w.database.catalog.tables.objects]? =
      some w.session.workspace.base) : w'.database.objects = w.session.workspace.view := by
  cases h with
  | clean hclean =>
    rw [Database.objects_eq hbase,
      Workspace.view_of_entries_eq_nil (hvalid.pending_eq_zero_iff.mp (not_not.mp hclean))]
  | @published _ sequence x _ _ _ _ hpublish =>
    rw [← htables] at hdistinct hbase
    have hpublished := Session.objects_of_publish hpublish hdistinct hbase
    rw [htables] at hpublished
    exact @Database.objects_eq ⟨w.database.catalog, w.database.store.publish x, sequence⟩ _ hpublished

end Working

theorem Store.Houses.of_commits {t : Tables} {w w' : Work} {stamp : Stamp} {result : Except Error (Option CommitId)}
    (h : w.database.store.Houses t) (htables : w.session.catalog.tables = t)
    (hcommits : Working.Commits stamp w result w') : w'.database.store.Houses t := by
  cases hcommits with
  | readOnly _ => exact h
  | clean _ => exact h
  | failed _ _ => exact h
  | published _ _ _ hpublish =>
    obtain ⟨hopens, table, htable, hvalid⟩ := h
    subst htables
    refine ⟨hopens.congr (Session.names_of_publish hpublish htable), _,
      Session.objects_of_publish hpublish hopens.distinct htable, ?_⟩
    rw [hvalid.order_eq]
    exact hvalid.override _

structure System.Housed (t : Tables) (s : System) : Prop where
  tables_eq : s.database.catalog.tables = t
  store : s.database.store.Houses t
  sessions : ∀ u ∈ s.sessions, u.catalog.tables = t

theorem System.Housed.moves {t : Tables} {s s' : System} {result : Except Error Unit} (h : s.Housed t)
    (hmove : s.Moves result s') : s'.Housed t := by
  cases hmove with
  | apart hsessions =>
    refine ⟨h.tables_eq, h.store, fun u hu => ?_⟩
    rcases hsessions u hu with hold | ⟨writable, hopened⟩ | ⟨v, hv, actor, rfl⟩
    · exact h.sessions u hold
    · obtain ⟨_, _, _, -, -, rfl⟩ := Session.create_eq_ok hopened
      exact h.tables_eq
    · exact h.sessions v hv
  | @called call session result w sessions hsession hrun hsessions =>
    have hsame : w.session.catalog = session.catalog := Working.session_catalog hrun
    have htables := h.sessions session hsession
    have hdatabase : w.database.catalog.tables = t ∧ w.database.store.Houses t := by
      cases call with
      | edit edit =>
        obtain ⟨_, -, rfl⟩ := Working.of_edit_run hrun
        exact ⟨h.tables_eq, h.store⟩
      | commit stamp =>
        obtain ⟨_, hcommits, -⟩ := Working.of_commit_run hrun
        rw [Working.catalog_of_commits hcommits]
        exact ⟨h.tables_eq, Store.Houses.of_commits h.store htables hcommits⟩
    refine ⟨hdatabase.1, hdatabase.2, fun u hu => ?_⟩
    rcases hsessions u hu with hold | rfl
    · exact h.sessions u hold
    · rw [hsame, htables]
  | rebuilt hrebuild =>
    obtain ⟨x, hrun, rfl⟩ := Database.exists_of_rebuildSearch hrebuild
    obtain ⟨hopens, table, htable, hvalid⟩ := h.store
    have hframe := Rebuild.frame_of_run hrun
    rw [h.tables_eq] at hframe
    have hkept := hframe.getElem?_eq _ hopens.distinct.objects_ne_search
    exact ⟨h.tables_eq, ⟨hopens.congr hframe.names_eq, table, hkept.trans htable, hvalid⟩, h.sessions⟩

namespace Database

variable {store opened : Store} {t : Tables} {schema : Schema} {config config' : Config} {stamp stamp' : Stamp}
  {db db' : Database} {s : System}

theorem create_stores (hopened : opened.Houses t) (hopen : store.openTables = .ok (t, opened))
    (h : create store schema config stamp = .ok db) : ∃ base sequence, ∃ u u' : Session, ∃ c w,
      opened.committed.tables[t.objects]? = some base ∧ u.Stores base schema u' ∧ u'.catalog = ⟨t, schema, config⟩ ∧
      Working.Commits stamp ⟨⟨⟨t, schema, config⟩, opened, sequence⟩, u'⟩ (.ok c) w ∧ db = w.database := by
  obtain ⟨-, sequence, u, w, c, w', hsession, hstore, hcommit, rfl⟩ := create_over_eq_ok hopen h
  obtain ⟨base, hbase, hvalid⟩ := hopened.objects
  obtain ⟨capacity, workspace, recorders, hworkspace, -, rfl⟩ := Session.create_eq_ok hsession
  rw [Snapshot.table_eq hbase] at hworkspace
  obtain ⟨hsound, hpinned, hunstaged⟩ := Workspace.create_spec hvalid hworkspace
  rw [Working.edit_run, Prod.mk.injEq] at hstore
  obtain ⟨hok, rfl⟩ := hstore
  have hstores : Session.Stores base schema _ _ := ⟨hsound, hpinned, hunstaged, Prod.ext hok rfl⟩
  exact ⟨base, sequence, _, _, c, w', hbase, hstores, hstores.pinned.1, Working.commits_of_run hcommit, rfl⟩

theorem housed_of_create (hopened : opened.Houses t) (hopen : store.openTables = .ok (t, opened))
    (h : create store schema config stamp = .ok db) : (System.mk db []).Housed t := by
  obtain ⟨_, sequence, _, u, _, _, -, -, hcatalog, hcommits, rfl⟩ := create_stores hopened hopen h
  refine ⟨?_, Store.Houses.of_commits hopened (congrArg Catalog.tables hcatalog) hcommits, nofun⟩
  rw [Working.catalog_of_commits hcommits]

theorem tells_of_create (hopened : opened.Houses t) (hopen : store.openTables = .ok (t, opened))
    (hschema : schema.Lawful) (h : create store schema config stamp = .ok db) :
    ∀ d ∈ schema.own, (recorded db.objects).Tells d := by
  obtain ⟨_, sequence, _, u, _, _, hbase, hstores, hcatalog, hcommits, rfl⟩ := create_stores hopened hopen h
  obtain ⟨hvalid, htells⟩ := hstores.tells hschema
  rw [← hstores.pinned.2] at hbase
  rwa [Working.objects_of_commits hcommits hvalid (congrArg Catalog.tables hcatalog) hopened.opens.distinct hbase]

theorem Continues.housed (h : db.Continues s) (hdb : (System.mk db []).Housed t) : s.Housed t := by
  induction h with
  | start => exact hdb
  | stepped step _ ih => exact ih.moves (System.moves _ step)
  | reopened _ hopened ih =>
    obtain ⟨_, hresume⟩ := ofStore_eq_ok ih.store.opens.openTables_eq hopened
    rw [resume_eq_ok hresume]
    exact ⟨rfl, ih.store, nofun⟩
  | installed _ hcreate ih => exact housed_of_create ih.store ih.store.opens.openTables_eq hcreate

theorem Continues.run (h : db.Continues s) (steps : List Step) : db.Continues (s.run steps).2 := by
  induction steps generalizing s with
  | nil => exact h
  | cons step steps ih =>
    rw [System.run_cons]
    exact ih (h.stepped step)

theorem tells_of_definitions {d : Definition} (h : (recorded db.objects).Tells d)
    (hdb : Dictionary.Ascending KeyOrder.lexicographic db.objects)
    (hdb' : Dictionary.Ascending KeyOrder.lexicographic db'.objects) (hkept : db'.definitions = db.definitions) :
    (recorded db'.objects).Tells d where
  object_eq := (object_iff_of_definitions hdb hdb' hkept d.kind_mem).mpr h.object_eq
  part_eq p hp := (field_eq_of_definitions hdb hdb' hkept d.kind_mem h.object_eq p.1).trans (h.part_eq p hp)

/-- To install a schema again changes no table, if all that was done since left the definitions as they were.
Neither the configuration nor the time needs to be what it was. -/
theorem reinstallation_changes_nothing (hschema : schema.Built)
    (hstore : ∀ table ∈ store.committed.tables, table.name = "objects" → table.Valid KeyOrder.lexicographic)
    (hcreate : create store schema config stamp = .ok db) (hs : db.Continues s)
    (hkept : s.database.definitions = db.definitions)
    (hagain : create s.database.store schema config' stamp' = .ok db') :
    db'.catalog.tables = s.database.catalog.tables ∧
      db'.store.committed.tables = s.database.store.committed.tables := by
  obtain ⟨⟨⟩, -, hrest⟩ := bind_eq_ok.mp hcreate
  obtain ⟨⟨t, opened⟩, hopen, -⟩ := bind_eq_ok.mp hrest
  have hopened := Store.houses_of_openTables hstore hopen
  have hfirst := housed_of_create hopened hopen hcreate
  have hhoused := hs.housed hfirst
  obtain ⟨base, sequence, u, u', c, w, hbase, hstores, hcatalog, hcommits, rfl⟩ :=
    create_stores hhoused.store hhoused.store.opens.openTables_eq hagain
  have hobjects : s.database.objects = base.entries := objects_eq (hhoused.tables_eq ▸ hbase)
  have htells : ∀ d ∈ schema.own, (recorded base.entries).Tells d := by
    intro d hd
    rw [← hobjects]
    apply tells_of_definitions (tells_of_create hopened hopen hschema.lawful hcreate d hd) _ _ hkept
    · obtain ⟨table, htable, hvalid⟩ := hfirst.store.objects
      rw [← hfirst.tables_eq] at htable
      exact objects_eq htable ▸ hvalid.ascending
    · exact hobjects ▸ hstores.base_eq ▸ hstores.valid.base.ascending
  refine ⟨?_, ?_⟩
  · rw [Working.catalog_of_commits hcommits, hhoused.tables_eq]
  · cases hcommits with
    | clean _ => rfl
    | published _ _ _ hpublish =>
      have htables : u'.catalog.tables = t := congrArg Catalog.tables hcatalog
      rw [← htables] at hbase
      exact (hstores.idle htells).tables_of_publish hpublish hbase

theorem reinstallation_changes_nothing_assorted :
    ∃ db db', create (Store.empty 10000) .assorted {} ⟨0, 0⟩ = .ok db ∧
      let s := ((System.mk db []).run System.settlement).2
      s.database.definitions = db.definitions ∧ s.database.objects.length = 23 ∧
        create s.database.store .assorted {} ⟨1, 0⟩ = .ok db' ∧
        db'.catalog.tables = s.database.catalog.tables ∧
        db'.store.committed.tables = s.database.store.committed.tables := by
  have hscript : (do
      let db ← create (Store.empty 10000) .assorted {} ⟨0, 0⟩
      let s := ((System.mk db []).run System.settlement).2
      let _ ← create s.database.store .assorted {} ⟨1, 0⟩
      return (decide (s.database.definitions = db.definitions), s.database.objects.length)) =
      (.ok (true, 23) : Except Error _) := by decide +kernel
  obtain ⟨db, hcreate, hscript⟩ := bind_eq_ok.mp hscript
  obtain ⟨db', hagain, hend⟩ := bind_eq_ok.mp hscript
  obtain ⟨hkept, hlength⟩ := Prod.mk.inj (Except.ok.inj hend)
  have hkept := of_decide_eq_true hkept
  exact ⟨db, db', hcreate, hkept, hlength, hagain, reinstallation_changes_nothing Schema.built_assorted
    (fun table htable => absurd htable List.not_mem_nil) hcreate (Continues.start.run _) hkept hagain⟩

end Database

end ObjectGraph

import ObjectGraph.Proofs.Database.SearchIndex
import ObjectGraph.Proofs.Database.SingleWriter

namespace ObjectGraph

structure Session.Orderly (c : Catalog) (s : Session) : Prop where
  catalog_eq : s.catalog = c
  valid : s.workspace.Valid KeyOrder.lexicographic
  base : Admitted c.schema s.workspace.base.entries
  staged : Staged.Admitted c.schema s.workspace.overlay.entries

structure Database.Orderly (schema : Schema) (config : Config) (db : Database) : Prop where
  schema_eq : db.catalog.schema = schema
  config_eq : db.catalog.config = config
  distinct : db.catalog.tables.Distinct
  objects : ∃ table, db.store.committed.tables[db.catalog.tables.objects]? = some table ∧
    table.Valid KeyOrder.lexicographic ∧ Admitted schema table.entries

variable {schema : Schema} {config : Config} {db db' : Database} {c : Catalog}

theorem Session.closed_orderly : Editing.Closed (Session.Orderly c) where
  put := by
    intro s k v w hs hadmits hput
    obtain ⟨hvalid, hbase, -⟩ := hs.valid.put hput
    obtain ⟨o, ho, rfl⟩ := Workspace.put_eq_ok hput
    obtain ⟨-, hentries⟩ := hs.valid.overlay.put ho
    refine ⟨hs.catalog_eq, hvalid, hs.base, ?_⟩
    rw [hentries]
    apply Staged.admitted_insert hs.valid.overlay.ascending hs.staged
    rintro _ ⟨⟩
    exact hs.catalog_eq ▸ hadmits
  erase := by
    intro s bs w hs hdelete
    obtain ⟨hvalid, -, -⟩ := hs.valid.delete hdelete
    rcases Workspace.delete_eq_ok hdelete with ⟨hfound, o, ho, rfl⟩ | ⟨-, rfl⟩
    · refine ⟨hs.catalog_eq, hvalid, hs.base, ?_⟩
      -- only what the pinned version holds is marked as removed
      obtain ⟨v, hv⟩ := Option.isSome_iff_exists.mp hfound
      rw [hs.valid.base.get?_eq, Dictionary.get?_eq_some_iff hs.valid.base.ascending] at hv
      obtain ⟨k, rfl, -⟩ := hs.base _ hv
      obtain ⟨-, hentries⟩ := hs.valid.overlay.put ho
      rw [hentries]
      exact Staged.admitted_insert hs.valid.overlay.ascending hs.staged nofun
    · refine ⟨hs.catalog_eq, hvalid, hs.base, ?_⟩
      obtain ⟨-, hentries⟩ := hs.valid.overlay.remove bs
      rw [hentries]
      exact Staged.admitted_erase hs.staged bs
  rollback := by
    intro s hs
    refine ⟨hs.catalog_eq, hs.valid.reset.1, hs.base, ?_⟩
    intro e he
    rw [Session.rollback, Workspace.reset, hs.valid.overlay.reset.2] at he
    contradiction

theorem Session.Orderly.rebase {s : Session} (hs : s.Orderly c) {snapshot : Snapshot} {table : Table}
    (htable : snapshot.tables[c.tables.objects]? = some table)
    (hvalid : table.Valid KeyOrder.lexicographic) (hadmitted : Admitted c.schema table.entries) :
    (s.rebase snapshot).Orderly c := by
  have hbase : (s.rebase snapshot).workspace = s.workspace.reset.refresh table := by
    rw [Session.rebase, hs.catalog_eq, Snapshot.table_eq htable]
  refine ⟨hs.catalog_eq, ?_, ?_, ?_⟩
  · rw [hbase]
    exact hs.valid.reset.1.refresh hvalid
  · rw [hbase]
    exact hadmitted
  · rw [hbase]
    intro e he
    rw [Workspace.refresh, Workspace.reset, hs.valid.overlay.reset.2] at he
    contradiction

theorem Database.Orderly.session (h : db.Orderly schema config) {writable : Bool} {s : Session}
    (hs : db.session writable = .ok s) : s.Orderly db.catalog := by
  obtain ⟨table, htable, hvalid, hadmitted⟩ := h.objects
  obtain ⟨capacity, w, recorders, hw, -, rfl⟩ := Session.create_eq_ok hs
  rw [Snapshot.table_eq htable] at hw
  obtain ⟨hworkspace, hbase, hentries⟩ := Workspace.create_spec hvalid hw
  refine ⟨rfl, hworkspace, ?_, ?_⟩
  · rw [hbase, h.schema_eq]
    exact hadmitted
  · rw [hentries]
    nofun

namespace Working

theorem orderly_of_commits {stamp : Stamp} {w w' : Work} {result : Except Error (Option CommitId)}
    (hdb : w.database.Orderly schema config) (hs : w.session.Orderly w.database.catalog)
    (h : Commits stamp w result w') :
    w'.database.Orderly schema config ∧ w'.database.catalog = w.database.catalog ∧
      w'.session.Orderly w.database.catalog := by
  cases h with
  | readOnly => exact ⟨hdb, rfl, hs⟩
  | clean => exact ⟨hdb, rfl, hs⟩
  | failed =>
    exact ⟨⟨hdb.schema_eq, hdb.config_eq, hdb.distinct, hdb.objects⟩, rfl,
      hs.catalog_eq, hs.valid, hs.base, hs.staged⟩
  | @published c sequence x recorders _ _ _ hpublish =>
    obtain ⟨table, htable, hvalid, hadmitted⟩ := hdb.objects
    have hobjects := Session.objects_of_publish hpublish (hs.catalog_eq ▸ hdb.distinct)
      (hs.catalog_eq ▸ htable)
    rw [hs.catalog_eq, hvalid.order_eq] at hobjects
    have hadmitted' := hadmitted.override hvalid.ascending (hdb.schema_eq ▸ hs.staged)
    have hvalid' := hvalid.override w.session.workspace.overlay.entries
    refine ⟨⟨hdb.schema_eq, hdb.config_eq, hdb.distinct, _, hobjects, hvalid', hadmitted'⟩, rfl, ?_⟩
    have hs' : { w.session with recorders }.Orderly w.database.catalog :=
      ⟨hs.catalog_eq, hs.valid, hs.base, hs.staged⟩
    exact hs'.rebase hobjects hvalid' (hdb.schema_eq ▸ hadmitted')

theorem orderly_of_call {call : WriterCall} {w w' : Work} {result : Except Error Unit}
    (hdb : w.database.Orderly schema config) (hs : w.session.Orderly w.database.catalog)
    (hrun : call.run.run w = (result, w')) :
    w'.database.Orderly schema config ∧ w'.database.catalog = w.database.catalog ∧
      w'.session.Orderly w.database.catalog := by
  cases call with
  | edit e =>
    obtain ⟨s, hs', rfl⟩ := of_edit_run hrun
    exact ⟨hdb, rfl, (Session.closed_orderly.keeps_perform e).of_run hs hs'⟩
  | commit stamp =>
    obtain ⟨committed, hcommits, -⟩ := of_commit_run hrun
    exact orderly_of_commits hdb hs hcommits

end Working

namespace Database

theorem fresh_orderly {mapSize : Nat} : (fresh mapSize schema config).Orderly schema config where
  schema_eq := rfl
  config_eq := rfl
  distinct := fresh_distinct
  objects := ⟨_, rfl, ⟨rfl, .nil⟩, nofun⟩

theorem orderly_of_create {mapSize : Nat} {stamp : Stamp}
    (h : create (Store.empty mapSize) schema config stamp = .ok db) : db.Orderly schema config := by
  obtain ⟨s, w, c, w', hs, hstore, hcommit, rfl⟩ := create_eq_ok h
  have hfresh : (fresh mapSize schema config).Orderly schema config := fresh_orderly
  rw [Working.edit_run] at hstore
  obtain ⟨hok, rfl⟩ := Prod.mk.inj hstore
  have hstored := (Schema.keeps_store Session.closed_orderly schema).ok (hfresh.session hs)
    (Prod.ext hok rfl)
  exact (Working.orderly_of_commits hfresh hstored (Working.commits_of_run hcommit)).1

theorem Orderly.rebuildSearch (h : db.Orderly schema config) {field : Id} {count : Nat}
    (hrebuild : db.rebuildSearch field = .ok (count, db')) :
    db'.Orderly schema config ∧ db'.catalog = db.catalog := by
  obtain ⟨table, htable, hvalid, hadmitted⟩ := h.objects
  obtain ⟨x, hrun, rfl⟩ := Database.exists_of_rebuildSearch hrebuild
  have hobjects := ((Rebuild.frame_of_run hrun).getElem?_eq _ h.distinct.objects_ne_search).trans htable
  exact ⟨⟨h.schema_eq, h.config_eq, h.distinct, table, hobjects, hvalid, hadmitted⟩, rfl⟩

end Database

theorem Interleaved.orderly {sessions : List Session} (h : Interleaved schema config db sessions) :
    db.Orderly schema config ∧ ∀ s ∈ sessions, s.Orderly db.catalog := by
  apply h.invariant
  · exact Database.orderly_of_create
  · exact fun hdb hs => hdb.session hs
  · exact fun _ hs => ⟨hs.catalog_eq, hs.valid, hs.base, hs.staged⟩
  · exact Working.orderly_of_call
  · exact fun hdb hrebuild => hdb.rebuildSearch hrebuild

theorem SingleWriter.interleaved {session : Option Session} (h : SingleWriter schema db session) :
    ∃ config, Interleaved schema config db session.toList := by
  induction h with
  | created hcreate => exact ⟨_, .created hcreate⟩
  | @opened db previous s _ hs ih =>
    obtain ⟨config, ih⟩ := ih
    refine ⟨config, ?_⟩
    have hopened := ih.opened true hs
    cases previous with
    | none => exact hopened
    | some t => exact @Interleaved.closed _ _ _ [s] [] t hopened
  | called call _ hrun _ ih =>
    obtain ⟨config, ih⟩ := ih
    exact ⟨config, @Interleaved.called _ _ _ [] [] _ _ _ call ih hrun⟩

end ObjectGraph

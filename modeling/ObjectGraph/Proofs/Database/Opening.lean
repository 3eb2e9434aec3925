import ObjectGraph.Proofs.Database.SingleWriter
import ObjectGraph.Proofs.History.Store
import ObjectGraph.Proofs.Session.StoredSchema

namespace ObjectGraph

open Stateful

structure Store.Tabled (store : Store) : Prop where
  names : store.committed.tables.map Table.name = Database.tableNames
  history : ∃ table, store.committed.tables[1]? = some table ∧ ∀ e ∈ table.entries, e.1.length = 16

theorem Store.Tabled.objects {store : Store} (h : store.Tabled) :
    ∃ table, store.committed.tables[0]? = some table := by
  have hname := congrArg (·[0]?) h.names
  simp only [List.getElem?_map, Database.tableNames] at hname
  obtain ⟨table, htable, -⟩ := Option.map_eq_some_iff.mp hname
  exact ⟨table, htable⟩

theorem Session.history_of_publish {s : Session} {c : CommitId} {x x' : WriteTxn} {r r' : Recorders}
    (h : (s.publish c).run (x, r) = (.ok ⟨⟩, x', r')) (hdistinct : s.catalog.tables.Distinct)
    {objects history : Table} (hobjects : x.working.tables[s.catalog.tables.objects]? = some objects)
    (hhistory : x.working.tables[s.catalog.tables.history]? = some history) :
    ∃ history', x'.working.tables[s.catalog.tables.history]? = some history' ∧
      ∀ e ∈ history'.entries, e ∈ history.entries ∨ e.1 = c.bytes := by
  obtain ⟨r₁, n, y, r₂, z, -, hreplay, hstore, hflush⟩ := publish_eq_ok h
  obtain ⟨-, -, hreplaces⟩ := Workspace.replay_eq_ok hobjects hreplay
  have hy : y.working.tables[s.catalog.tables.history]? = some history :=
    (hreplaces.getElem?_ne hdistinct.objects_ne_history.symm).trans hhistory
  rw [(Recorders.frame_of_flushIndex hflush).getElem?_eq _ hdistinct.search_ne_history.symm]
  obtain ⟨-, hstore⟩ := Recorders.storeRecord_eq_ok hstore
  split at hstore
  · rw [hstore]
    exact ⟨history, hy, fun e he => .inl he⟩
  · rcases Draft.store_eq_ok hdistinct hy hstore with ⟨-, rfl⟩ | ⟨-, d', -, hstored, -⟩
    · exact ⟨history, hy, fun e he => .inl he⟩
    · refine ⟨_, hstored, fun e he => ?_⟩
      rcases Dictionary.of_mem_insert he with rfl | he
      · exact .inr rfl
      · exact .inl he

theorem Store.Tabled.of_commits {w w' : Work} {stamp : Stamp} {result : Except Error (Option CommitId)}
    (h : w.database.store.Tabled) (htables : w.session.catalog.tables = ⟨0, 1, 2, 3⟩)
    (hcommits : Working.Commits stamp w result w') : w'.database.store.Tabled := by
  cases hcommits with
  | readOnly => exact h
  | clean => exact h
  | failed => exact h
  | @published id sequence x recorders _ _ _ hpublish =>
    obtain ⟨objects, hobjects⟩ := h.objects
    obtain ⟨history, hhistory, hkeys⟩ := h.history
    have hdistinct : w.session.catalog.tables.Distinct := by
      rw [htables]
      exact @Database.fresh_distinct 0 w.session.catalog.schema w.session.catalog.config
    have hbefore : w.database.store.beginWrite.working.tables[w.session.catalog.tables.objects]? =
        some objects := by
      rw [htables]
      exact hobjects
    obtain ⟨history', hafter, hkept⟩ := Session.history_of_publish hpublish hdistinct hbefore (by
      rw [htables]
      exact hhistory)
    rw [htables] at hafter
    refine ⟨(Session.names_of_publish hpublish hbefore).trans h.names, history', hafter, fun e he => ?_⟩
    rcases hkept e he with he | he
    · exact hkeys e he
    · rw [he, id.length_bytes]

theorem Store.Tabled.resume_isOk {db : Database} (h : db.store.Tabled) (htables : db.catalog.tables.history = 1) :
    ∃ db', db.resume = .ok db' := by
  obtain ⟨table, htable, hkeys⟩ := h.history
  have hlast : ∃ c, db.history.lastCommit? = .ok c := by
    rw [History.lastCommit?, Database.history, htables, Snapshot.table_eq htable, Table.last]
    cases he : table.entries.getLast? with
    | none => exact ⟨none, rfl⟩
    | some e =>
      have hread : Id.ofBytes? e.1 = some ⟨e.1, hkeys e (List.mem_of_getLast? he)⟩ := dif_pos _
      refine ⟨some ⟨e.1, hkeys e (List.mem_of_getLast? he)⟩, ?_⟩
      simp only [Option.toList_some, History.readCommitId, hread]
      rfl
  obtain ⟨c, hc⟩ := hlast
  rw [Database.resume, hc]
  cases c <;> exact ⟨_, rfl⟩

theorem Session.create_readOnly (c : Catalog) (snapshot : Snapshot) :
    if c.config.pageSize = 0 then create c snapshot false = .error (.invalidArgument .zeroPageSize)
    else ∃ s, create c snapshot false = .ok s := by
  split
  next hzero => simp [create, Workspace.create, Overlay.create, Quota.create, hzero, bind, Except.bind]
  next hpage =>
    simp [create, Workspace.create, Overlay.create, Quota.create, hpage, bind, Except.bind, pure, Except.pure]

theorem Session.pageSize_ne_zero {c : Catalog} {snapshot : Snapshot} {writable : Bool} {s : Session}
    (h : create c snapshot writable = .ok s) : c.config.pageSize ≠ 0 := by
  intro hzero
  simp [create, Workspace.create, Overlay.create, Quota.create, hzero, bind, Except.bind] at h

structure Store.Describes (s : Schema) (store : Store) : Prop where
  tabled : store.Tabled
  objects : ∃ base, store.committed.tables[0]? = some base ∧ base.Valid KeyOrder.lexicographic ∧
    Keyed base.entries ∧ (recorded base.entries).Defines s.definition?

theorem Store.Describes.ofStore_eq {s : Schema} {store opened : Store} (h : opened.Describes s) (hs : s.Lawful)
    (hproper : s.Proper) (hopen : store.openTables = .ok (⟨0, 1, 2, 3⟩, opened)) (config : Config) :
    (Database.ofStore store config).map (·.catalog.schema) =
      (if config.pageSize = 0 then .error (.invalidArgument .zeroPageSize) else s.validate).map fun _ => s := by
  obtain ⟨base, hcommitted, hbase, hkeyed, hdefines⟩ := h.objects
  have hcreate := Session.create_readOnly ⟨⟨0, 1, 2, 3⟩, Schema.builtin, config⟩ opened.committed
  rw [Database.ofStore, hopen, ok_bind]
  dsimp only at hcreate ⊢
  split at hcreate
  next hzero =>
    rw [Database.session, hcreate, if_pos hzero]
    rfl
  next hpage =>
    obtain ⟨session, hsession⟩ := hcreate
    have hshows := @Database.shows_of_session base ⟨⟨⟨0, 1, 2, 3⟩, Schema.builtin, config⟩, opened, {}⟩
      hcommitted hbase hkeyed false session hsession
    have hread : session.storedSchema = s.validate.map fun _ => s :=
      hshows.storedSchema_eq hdefines rfl hs hproper
    rw [Database.session, hsession, ok_bind, hread, if_neg hpage]
    cases s.validate with
    | error e => rfl
    | ok _ =>
      obtain ⟨db, hresume⟩ := @Tabled.resume_isOk ⟨⟨⟨0, 1, 2, 3⟩, s, config⟩, opened, {}⟩ h.tabled rfl
      have hschema : db.catalog.schema = s := by rw [Database.resume_eq_ok hresume]
      change (Database.resume _).map _ = _
      rw [hresume, ← hschema]
      rfl

end ObjectGraph

import ObjectGraph.Proofs.Database.Admission
import ObjectGraph.Proofs.Session.Recording

namespace ObjectGraph

open Stateful (Triple)

def Config.recordRoom (c : Config) : Option Nat :=
  if c.history then some (min c.arenaCapacity Quota.maxCapacity) else none

structure Session.Equipped (c : Catalog) (s : Session) : Prop where
  orderly : s.Orderly c
  room_eq : s.writable = true → s.recorders.room = c.config.recordRoom

structure Database.Equipped (schema : Schema) (config : Config) (db : Database) : Prop where
  orderly : db.Orderly schema config
  within : db.catalog.tables.Within db.store.committed.tables.length

variable {schema : Schema} {config : Config} {db db' : Database} {c : Catalog}

theorem Config.recordRoom_le (c : Config) : ∀ capacity ∈ c.recordRoom, capacity ≤ Quota.maxCapacity := by
  intro capacity hcapacity
  rw [recordRoom] at hcapacity
  split at hcapacity
  · cases hcapacity
    exact Nat.min_le_right _ _
  · contradiction

theorem Draft.capacity_of_create {capacity pageSize : Nat} {d : Draft}
    (h : create capacity pageSize = .ok d) : d.quota.capacity = min capacity Quota.maxCapacity := by
  obtain ⟨quota, hquota, hstart⟩ := Stateful.bind_eq_ok.mp h
  rw [(reports_of_start hstart fun _ => none).1]
  rw [Quota.create] at hquota
  split at hquota
  · contradiction
  · cases hquota
    rfl

theorem Recorders.room_of_create {r : Recorders} (h : create config = .ok r) :
    r.room = config.recordRoom := by
  have hindexer : ∀ draft : Option Draft,
      (if config.search = true then do
          let indexer ← some <$> Indexer.create config.arenaCapacity config.pageSize
          return ⟨draft, indexer⟩
        else return ⟨draft, none⟩) = Except.ok r → r.draft = draft := by
    intro draft h
    split at h
    · obtain ⟨indexer, -, h⟩ := Stateful.bind_eq_ok.mp h
      cases h
      rfl
    · cases h
      rfl
  rw [room, Config.recordRoom]
  rw [create] at h
  split at h
  next hhistory =>
    obtain ⟨draft, hdraft, h⟩ := Stateful.bind_eq_ok.mp h
    obtain ⟨d, hd, rfl⟩ := Stateful.map_eq_ok.mp hdraft
    rw [if_pos hhistory, hindexer _ h, Option.map_some, Draft.capacity_of_create hd]
  next hhistory =>
    rw [if_neg hhistory, hindexer _ h]
    rfl

theorem Session.closed_equipped : Editing.Closed (Session.Equipped c) where
  put s k v w hs hv hput := ⟨closed_orderly.put s k v w hs.orderly hv hput, hs.room_eq⟩
  erase s bs w hs hdelete := ⟨closed_orderly.erase s bs w hs.orderly hdelete, hs.room_eq⟩
  rollback s hs := ⟨closed_orderly.rollback s hs.orderly, hs.room_eq⟩

theorem Database.Equipped.session (h : db.Equipped schema config) {writable : Bool} {s : Session}
    (hs : db.session writable = .ok s) : s.Equipped db.catalog := by
  refine ⟨h.orderly.session hs, ?_⟩
  obtain ⟨capacity, w, recorders, -, hrecorders, rfl⟩ := Session.create_eq_ok hs
  exact fun hwritable => Recorders.room_of_create (hrecorders hwritable)

namespace Working

variable {w w' : Work}

theorem publish_tells (hdb : w.database.Equipped schema config)
    (hs : w.session.Equipped w.database.catalog) (hwritable : w.session.writable = true)
    (c : CommitId) {table : Table}
    (htable : w.database.store.committed.tables[w.database.catalog.tables.objects]? = some table)
    (hvalid : table.Valid KeyOrder.lexicographic) (hadmitted : Admitted schema table.entries) :
    Triple (· = (w.database.store.beginWrite, w.session.recorders)) (w.session.publish c)
      (fun _ xs => Recorders.Told w.database.catalog.tables c w.database.store.beginWrite
          config.recordRoom (recorded table.entries) (recorded (Staged.override
            KeyOrder.lexicographic table.entries w.session.workspace.overlay.entries)) xs ∧
        xs.1.working.tables[w.database.catalog.tables.objects]? = some (table.withEntries
          (Staged.override KeyOrder.lexicographic table.entries w.session.workspace.overlay.entries)))
      (Replay.Stuck config.recordRoom) := by
  have hcatalog := hs.orderly.catalog_eq
  have hschema : w.session.catalog.schema = schema := by rw [hcatalog, hdb.orderly.schema_eq]
  have hdistinct : w.session.catalog.tables.Distinct := hcatalog ▸ hdb.orderly.distinct
  have hobjects : w.database.store.beginWrite.working.tables[w.session.catalog.tables.objects]? =
    some table := hcatalog ▸ htable
  have hroom : w.session.recorders.room = config.recordRoom := by
    rw [hs.room_eq hwritable, hdb.orderly.config_eq]
  have hstaged : Staged.Admitted w.session.catalog.schema w.session.workspace.overlay.entries :=
    hcatalog ▸ hs.orderly.staged
  have htells := Session.publish_tells (c := c) hdistinct
    (hcatalog ▸ hdb.within) hobjects hvalid (hschema ▸ hadmitted) hs.orderly.valid.overlay.ascending
    hstaged config.recordRoom_le
  rw [hcatalog] at htells
  apply Triple.intro
  · rintro _ ⟨⟩ ⟨x, r⟩ rfl hrun
    refine ⟨htells.ok ⟨rfl, hroom⟩ hrun, ?_⟩
    have hwritten := Session.objects_of_publish hrun hdistinct hobjects
    rw [hcatalog, hvalid.order_eq] at hwritten
    exact hwritten
  · rintro _ e ⟨x, r⟩ rfl hrun
    exact htells.error ⟨rfl, hroom⟩ hrun

theorem equipped_of_commits {stamp : Stamp} {result : Except Error (Option CommitId)}
    (hdb : w.database.Equipped schema config) (hs : w.session.Equipped w.database.catalog)
    (h : Commits stamp w result w') :
    w'.database.Equipped schema config ∧ w'.database.catalog = w.database.catalog ∧
      w'.session.Equipped w.database.catalog := by
  obtain ⟨table, htable, hvalid, hadmitted⟩ := hdb.orderly.objects
  have htells := fun hwritable c => publish_tells hdb hs hwritable c htable hvalid hadmitted
  obtain ⟨hdb', hcatalog, hs'⟩ := orderly_of_commits hdb.orderly hs.orderly h
  suffices hkept : w'.database.catalog.tables.Within w'.database.store.committed.tables.length ∧
      (w'.session.writable = true → w'.session.recorders.room = w.database.catalog.config.recordRoom) from
    ⟨⟨hdb', hkept.1⟩, hcatalog, hs', hkept.2⟩
  cases h with
  | readOnly => exact ⟨hdb.within, hs.room_eq⟩
  | clean => exact ⟨hdb.within, hs.room_eq⟩
  | @failed c sequence e x recorders _ hrun =>
    refine ⟨hdb.within, fun hwritable => ?_⟩
    rw [hdb.orderly.config_eq]
    exact ((htells hwritable c).error rfl hrun).2
  | @published c sequence x recorders _ hwritable _ hrun =>
    obtain ⟨htold, -⟩ := (htells hwritable c).ok rfl hrun
    refine ⟨?_, fun _ => ?_⟩
    · exact htold.length_eq.symm ▸ hdb.within
    · rw [hdb.orderly.config_eq]
      exact htold.room_eq

theorem equipped_of_call {call : WriterCall} {result : Except Error Unit}
    (hdb : w.database.Equipped schema config) (hs : w.session.Equipped w.database.catalog)
    (hrun : call.run.run w = (result, w')) :
    w'.database.Equipped schema config ∧ w'.database.catalog = w.database.catalog ∧
      w'.session.Equipped w.database.catalog := by
  cases call with
  | edit e =>
    obtain ⟨s, hs', rfl⟩ := of_edit_run hrun
    exact ⟨hdb, rfl, (Session.closed_equipped.keeps_perform e).of_run hs hs'⟩
  | commit stamp =>
    obtain ⟨committed, hcommits, -⟩ := of_commit_run hrun
    exact equipped_of_commits hdb hs hcommits

end Working

namespace Database

theorem fresh_equipped {mapSize : Nat} : (fresh mapSize schema config).Equipped schema config where
  orderly := fresh_orderly
  within := ⟨Nat.zero_lt_succ 3, Nat.one_lt_succ_succ 2, Nat.lt_succ_of_lt (Nat.lt_succ_self 2),
    Nat.lt_succ_self 3⟩

theorem equipped_of_create {mapSize : Nat} {stamp : Stamp}
    (h : create (Store.empty mapSize) schema config stamp = .ok db) : db.Equipped schema config := by
  obtain ⟨s, w, c, w', hs, hstore, hcommit, rfl⟩ := create_eq_ok h
  have hfresh : (fresh mapSize schema config).Equipped schema config := fresh_equipped
  rw [Working.edit_run] at hstore
  obtain ⟨hok, rfl⟩ := Prod.mk.inj hstore
  have hstored := (Schema.keeps_store Session.closed_equipped schema).ok (hfresh.session hs)
    (Prod.ext hok rfl)
  exact (Working.equipped_of_commits hfresh hstored (Working.commits_of_run hcommit)).1

theorem Equipped.rebuildSearch (h : db.Equipped schema config) {field : Id} {count : Nat}
    (hrebuild : db.rebuildSearch field = .ok (count, db')) :
    db'.Equipped schema config ∧ db'.catalog = db.catalog := by
  obtain ⟨horderly, hcatalog⟩ := h.orderly.rebuildSearch hrebuild
  obtain ⟨x, hrun, rfl⟩ := Database.exists_of_rebuildSearch hrebuild
  have hlength := (Rebuild.frame_of_run hrun).length_eq
  exact ⟨⟨horderly, hlength.symm ▸ h.within⟩, rfl⟩

end Database

theorem Interleaved.equipped {sessions : List Session} (h : Interleaved schema config db sessions) :
    db.Equipped schema config ∧ ∀ s ∈ sessions, s.Equipped db.catalog := by
  apply h.invariant
  · exact Database.equipped_of_create
  · exact fun hdb hs => hdb.session hs
  · exact fun _ hs => ⟨⟨hs.orderly.catalog_eq, hs.orderly.valid, hs.orderly.base, hs.orderly.staged⟩,
      hs.room_eq⟩
  · exact Working.equipped_of_call
  · exact fun hdb hrebuild => hdb.rebuildSearch hrebuild

end ObjectGraph

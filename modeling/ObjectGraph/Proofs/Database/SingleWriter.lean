import ObjectGraph.Database.Opening
import ObjectGraph.Proofs.Database.Commit
import ObjectGraph.Proofs.Session.Editing

namespace ObjectGraph

open Stateful (Triple)

structure Fits (schema : Schema) (d : List Entry) : Prop where
  lengths : ∀ e ∈ d, e.1.length = 16 ∨ e.1.length = 32 ∨ e.1.length = 64
  integrity : Integrity schema (recorded d)

theorem Fits.keyed {schema : Schema} {d : List Entry} (h : Fits schema d) : Keyed d :=
  fun e he => Key.exists_bytes_eq (h.lengths e he)

theorem Keyed.fits {schema : Schema} {d : List Entry} (h : Keyed d)
    (hd : Integrity schema (recorded d)) : Fits schema d := by
  refine ⟨fun e he => ?_, hd⟩
  obtain ⟨k, hk⟩ := h e he
  rw [hk, Key.length_bytes]
  cases k with
  | object a => exact .inl rfl
  | field a f => exact .inr (.inl rfl)
  | association e => exact .inr (.inr rfl)

/-- The states of a database and its writing session, if there is one: a session is opened after the
one before it has ended, and no call in it finds an arena exhausted. -/
inductive SingleWriter (schema : Schema) : Database → Option Session → Prop where
  | created {mapSize : Nat} {config : Config} {stamp : Stamp} {db : Database} :
      Database.create (Store.empty mapSize) schema config stamp = .ok db →
      SingleWriter schema db none
  | opened {db : Database} {previous : Option Session} {s : Session} :
      SingleWriter schema db previous → db.session true = .ok s → SingleWriter schema db (some s)
  | called {db : Database} {s : Session} {result : Except Error Unit} {w : Work} (call : WriterCall) :
      SingleWriter schema db (some s) → call.run.run ⟨db, s⟩ = (result, w) →
      (∀ e, result = .error e → ¬ e.IsExhaustion) → SingleWriter schema w.database (some w.session)

namespace Database

def objects (db : Database) : List Entry :=
  (db.store.committed.table db.catalog.tables.objects).entries

theorem objects_eq {db : Database} {table : Table}
    (h : db.store.committed.tables[db.catalog.tables.objects]? = some table) :
    db.objects = table.entries := congrArg Table.entries (Snapshot.table_eq h)

end Database

structure Database.Holds (schema : Schema) (base : Table) (db : Database) : Prop where
  schema_eq : db.catalog.schema = schema
  distinct : db.catalog.tables.Distinct
  committed : db.store.committed.tables[db.catalog.tables.objects]? = some base
  valid : base.Valid KeyOrder.lexicographic
  fits : Fits schema base.entries

def Work.Sound (schema : Schema) (w : Work) : Prop :=
  ∃ base, w.database.Holds schema base ∧ Editing.Sound w.database.catalog base w.session

variable {schema : Schema} {base : Table} {db : Database}

theorem Database.shows_of_session
    (hcommitted : db.store.committed.tables[db.catalog.tables.objects]? = some base)
    (hbase : base.Valid KeyOrder.lexicographic) (hkeyed : Keyed base.entries) {writable : Bool} {s : Session}
    (hs : db.session writable = .ok s) :
    Session.Shows db.catalog base (recorded base.entries) { s with writable := true } := by
  obtain ⟨capacity, w, recorders, hw, -, rfl⟩ := Session.create_eq_ok hs
  rw [Snapshot.table_eq hcommitted] at hw
  obtain ⟨hvalid, hpinned, hentries⟩ := Workspace.create_spec hbase hw
  have hview : w.view = base.entries := by rw [Workspace.view_of_entries_eq_nil hentries, hpinned]
  exact ⟨rfl, rfl, hpinned, hvalid, hview ▸ hkeyed, by rw [hview]⟩

theorem Database.Holds.shows (h : db.Holds schema base) {writable : Bool} {s : Session}
    (hs : db.session writable = .ok s) :
    Session.Shows db.catalog base (recorded base.entries) { s with writable := true } :=
  shows_of_session h.committed h.valid h.fits.keyed hs

theorem Database.Holds.session (h : db.Holds schema base) {s : Session}
    (hs : db.session true = .ok s) : Editing.Sound db.catalog base s := by
  have hshows := h.shows hs
  obtain ⟨_, _, _, -, -, rfl⟩ := Session.create_eq_ok hs
  exact ⟨_, hshows, h.schema_eq ▸ h.fits.integrity⟩

namespace Working

theorem edit_triple {α : Type} {m : Editing α}
    (h : ∀ c base, c.schema = schema → Fits schema base.entries → Editing.Preserves c base m) :
    Triple (Work.Sound schema) (edit m) (fun _ => Work.Sound schema)
      (fun e w => e.IsExhaustion ∨ Work.Sound schema w) := by
  rintro w ⟨base, hdb, hs⟩
  have hm := h w.database.catalog base hdb.schema_eq hdb.fits w.session hs
  rw [edit_run]
  split at hm
  next heq =>
    rw [heq]
    exact ⟨base, hdb, hm⟩
  next heq =>
    rw [heq]
    exact hm.imp id fun hm => ⟨base, hdb, hm⟩

theorem shows_of_publish {w : Work} {g : Records} {id : CommitId} {sequence : CommitSequence}
    {x : WriteTxn} {recorders : Recorders} (hdb : w.database.Holds schema base)
    (hs : w.session.Shows w.database.catalog base g) (hg : Integrity schema g)
    (hpublish : (w.session.publish id).run (w.database.store.beginWrite, w.session.recorders) =
      (.ok ⟨⟩, x, recorders)) :
    Database.Holds schema (base.withEntries w.session.workspace.view)
        ⟨w.database.catalog, w.database.store.publish x, sequence⟩ ∧
      ({ w.session with recorders }.rebase x.working).Shows w.database.catalog
        (base.withEntries w.session.workspace.view) g := by
  have hobjects := Session.objects_of_publish hpublish (hs.catalog_eq ▸ hdb.distinct)
    (hs.catalog_eq ▸ hdb.committed)
  have hview : Staged.override base.order base.entries w.session.workspace.overlay.entries =
      w.session.workspace.view := by rw [Workspace.view, hs.base_eq]
  rw [hview, hs.catalog_eq] at hobjects
  have hvalid : (base.withEntries w.session.workspace.view).Valid KeyOrder.lexicographic :=
    ⟨hdb.valid.order_eq, hs.valid.ascending_view⟩
  have hshows := (hs.withRecorders recorders).rebase (Snapshot.table_eq hobjects) hvalid hs.keyed
  have hrecords : recorded (base.withEntries w.session.workspace.view).entries = g := hs.records_eq
  rw [hrecords] at hshows
  exact ⟨⟨hdb.schema_eq, hdb.distinct, hobjects, hvalid, hs.keyed.fits (hrecords ▸ hg)⟩, hshows⟩

theorem sound_of_commits {stamp : Stamp} {w w' : Work} {result : Except Error (Option CommitId)}
    (h : w.Sound schema) (hcommits : Commits stamp w result w') : w'.Sound schema := by
  obtain ⟨base, hdb, g, hs, hg⟩ := h
  cases hcommits with
  | readOnly => exact ⟨base, hdb, g, hs, hg⟩
  | clean => exact ⟨base, hdb, g, hs, hg⟩
  | failed =>
    exact ⟨base, ⟨hdb.schema_eq, hdb.distinct, hdb.committed, hdb.valid, hdb.fits⟩, g,
      hs.withRecorders _, hg⟩
  | published _ _ _ hpublish =>
    obtain ⟨hdb', hs'⟩ := shows_of_publish hdb hs (hdb.schema_eq ▸ hg) hpublish
    exact ⟨_, hdb', g, hs', hg⟩

theorem commit_triple (stamp : Stamp) :
    Triple (Work.Sound schema) (commit stamp) (fun _ => Work.Sound schema)
      (fun _ => Work.Sound schema) := by
  intro w hw
  rcases hrun : (commit stamp).run w with ⟨_ | _, w'⟩
  · exact sound_of_commits hw (commits_of_run hrun)
  · exact sound_of_commits hw (commits_of_run hrun)

theorem run_triple (call : WriterCall) :
    Triple (Work.Sound schema) call.run (fun _ => Work.Sound schema)
      (fun e w => e.IsExhaustion ∨ Work.Sound schema w) := by
  cases call with
  | edit e =>
    apply edit_triple
    intro c base hc hbase
    exact Editing.preserves_perform hbase.keyed (hc ▸ hbase.integrity) e
  | commit stamp =>
    exact (Triple.discard (commit_triple stamp)).mono (fun _ hw => hw) (fun _ _ ⟨_, hw⟩ => hw)
      fun _ _ hw => .inr hw

end Working

theorem Database.fresh_holds {mapSize : Nat} {config : Config} :
    (fresh mapSize schema config).Holds schema ⟨"objects", KeyOrder.lexicographic, []⟩ where
  schema_eq := rfl
  distinct := fresh_distinct
  committed := rfl
  valid := ⟨rfl, .nil⟩
  fits := ⟨nofun, .empty⟩

theorem Database.holds_of_create {mapSize : Nat} {config : Config} {stamp : Stamp}
    (h : create (Store.empty mapSize) schema config stamp = .ok db) :
    ∃ base, db.Holds schema base := by
  obtain ⟨s, w, c, w', hs, hstore, hcommit, rfl⟩ := create_eq_ok h
  have hsound : Work.Sound schema ⟨fresh mapSize schema config, s⟩ :=
    ⟨_, fresh_holds, fresh_holds.session hs⟩
  have hedit : Triple (Work.Sound schema) (Working.edit schema.store) (fun _ => Work.Sound schema)
      (fun e w => e.IsExhaustion ∨ Work.Sound schema w) :=
    Working.edit_triple fun _ _ _ _ => Schema.preserves_store schema
  obtain ⟨base, hdb, -⟩ := (Working.commit_triple stamp).ok (hedit.ok hsound hstore) hcommit
  exact ⟨base, hdb⟩

theorem SingleWriter.sound {session : Option Session} (h : SingleWriter schema db session) :
    ∃ base, db.Holds schema base ∧ ∀ s ∈ session, Editing.Sound db.catalog base s := by
  induction h with
  | created hcreate =>
    obtain ⟨base, hdb⟩ := Database.holds_of_create hcreate
    exact ⟨base, hdb, nofun⟩
  | opened _ hs ih =>
    obtain ⟨base, hdb, -⟩ := ih
    refine ⟨base, hdb, ?_⟩
    rintro _ ⟨⟩
    exact hdb.session hs
  | @called db s result w call _ hrun hroom ih =>
    obtain ⟨base, hdb, hs⟩ := ih
    have hcall := Working.run_triple call ⟨db, s⟩ ⟨base, hdb, hs s rfl⟩
    rw [hrun] at hcall
    have hw : w.Sound schema := by
      cases result with
      | ok _ => exact hcall
      | error e => exact hcall.resolve_left (hroom e rfl)
    obtain ⟨base', hdb', hs'⟩ := hw
    refine ⟨base', hdb', ?_⟩
    rintro _ ⟨⟩
    exact hs'

/-- The committed records and those that the writing session shows are always a graph that fits the
schema. -/
theorem SingleWriter.keeps_integrity {session : Option Session} (h : SingleWriter schema db session) :
    Fits schema (db.store.committed.table db.catalog.tables.objects).entries ∧
      ∀ s ∈ session, Fits schema s.workspace.entries := by
  obtain ⟨base, hdb, hs⟩ := h.sound
  constructor
  · rw [Snapshot.table_eq hdb.committed]
    exact hdb.fits
  · intro s hsome
    obtain ⟨g, hshows, hg⟩ := hs s hsome
    rw [hshows.valid.entries_eq]
    exact hshows.keyed.fits (hdb.schema_eq ▸ hshows.records_eq ▸ hg)

theorem SingleWriter.forM {s : Session} {calls : List WriterCall} {w : Work}
    (h : SingleWriter schema db (some s))
    (hrun : (calls.forM WriterCall.run).run ⟨db, s⟩ = (.ok ⟨⟩, w)) :
    SingleWriter schema w.database (some w.session) := by
  induction calls generalizing db s with
  | nil =>
    cases hrun
    exact h
  | cons call calls ih =>
    obtain ⟨_, w', hcall, hrest⟩ := Stateful.run_bind_eq_ok.mp hrun
    exact ih (h.called call hcall nofun) hrest

def WriterCall.script (schema : Schema) (mapSize : Nat) (calls : List WriterCall) :
    Except Error Work := do
  let db ← Database.create (Store.empty mapSize) schema {} ⟨0, 0⟩
  let s ← db.session true
  let (result, w) := (calls.forM WriterCall.run).run ⟨db, s⟩
  result
  return w

theorem SingleWriter.of_script {mapSize : Nat} {calls : List WriterCall} {w : Work}
    (h : WriterCall.script schema mapSize calls = .ok w) :
    SingleWriter schema w.database (some w.session) := by
  rw [WriterCall.script] at h
  obtain ⟨db, hcreate, h⟩ := Stateful.bind_eq_ok.mp h
  obtain ⟨s, hs, h⟩ := Stateful.bind_eq_ok.mp h
  rcases hrun : (calls.forM WriterCall.run).run ⟨db, s⟩ with ⟨e | ⟨⟩, w'⟩
  · rw [hrun] at h
    cases h
  · rw [hrun] at h
    cases h
    exact ((SingleWriter.created hcreate).opened hs).forM hrun

def Schema.peers : Schema :=
  (builtin.withType { id := Id.ofNat 0x1000, name := "node" }).withField
    { id := Id.ofNat 0x1001, name := "peer", owner := Id.ofNat 0x1000, type := .association,
      pairing := some ⟨Id.ofNat 0x1001, false⟩ }

theorem SingleWriter.keeps_integrity_peers :
    ∃ db s, SingleWriter Schema.peers db (some s) ∧ s.workspace.entries.length = 12 ∧
      (db.store.committed.table db.catalog.tables.objects).entries.length = 13 ∧
      Fits Schema.peers (db.store.committed.table db.catalog.tables.objects).entries ∧
      Fits Schema.peers s.workspace.entries := by
  let a := Id.ofNat 1
  let b := Id.ofNat 2
  let node := Id.ofNat 0x1000
  let peer := Id.ofNat 0x1001
  let calls : List WriterCall := [.edit (.create node a), .edit (.create node b),
    .edit (.link ⟨a, peer, b, peer⟩), .commit ⟨0, 0⟩, .edit (.link ⟨b, peer, b, peer⟩)]
  have hscript : ((WriterCall.script Schema.peers 10000 calls).toOption.map fun w =>
      (w.session.workspace.entries.length,
        (w.database.store.committed.table w.database.catalog.tables.objects).entries.length)) =
      some (12, 13) := by decide +kernel
  obtain ⟨w, hw, hlengths⟩ := Option.map_eq_some_iff.mp hscript
  obtain ⟨hvisible, hcommitted⟩ := Prod.mk.inj hlengths
  cases hrun : WriterCall.script Schema.peers 10000 calls with
  | error e =>
    rw [hrun] at hw
    cases hw
  | ok w' =>
    rw [hrun] at hw
    cases hw
    have hwriter := SingleWriter.of_script hrun
    have hfits := hwriter.keeps_integrity
    exact ⟨_, _, hwriter, hvisible, hcommitted, hfits.1, hfits.2 _ rfl⟩

end ObjectGraph

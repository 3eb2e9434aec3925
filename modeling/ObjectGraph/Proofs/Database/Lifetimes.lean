import ObjectGraph.Proofs.Database.Equipment
import ObjectGraph.Proofs.Database.Moves
import ObjectGraph.Proofs.Session.Filing
import ObjectGraph.Proofs.Session.Restart
/-!
A store outlives the handles that are opened on it one after the other, and the schemas that they go by.
Whatever is done through them, its history grows by one record with every commit that changes an object,
and no record is ever touched again.
-/

namespace ObjectGraph

open Function (update)

structure Session.Filing (c : Catalog) (s : Session) : Prop where
  catalog_eq : s.catalog = c
  valid : s.workspace.Valid KeyOrder.lexicographic
  carried : Staged.Carried s.workspace.overlay.get?
  room_eq : s.writable = true → s.recorders.room = c.config.recordRoom

namespace Staged.Carried

variable {σ : Bytes → Option Bytes}

theorem update_upsert (h : Carried σ) {k : Key} {v : Bytes} (hv : k.Carries v) :
    Carried (update σ k.bytes (some (upsert v))) := by
  intro j w hw
  by_cases hj : j = k
  · subst hj
    rw [Function.update_self] at hw
    cases hw
    exact hv
  · rw [Function.update_of_ne (fun heq => hj (Key.bytes_injective heq))] at hw
    exact h j w hw

theorem update_remnant (h : Carried σ) (base : Table) (bs : Bytes) :
    Carried (update σ bs (remnant base bs)) := by
  intro j w hw
  by_cases hj : j.bytes = bs
  · rw [hj, Function.update_self, remnant] at hw
    split at hw
    · simp [tombstone, upsert] at hw
    · contradiction
  · rw [Function.update_of_ne hj] at hw
    exact h j w hw

theorem of_entries_eq_nil {o : Overlay} (h : o.Valid KeyOrder.lexicographic) (hempty : o.entries = []) :
    Carried o.get? := by
  intro k v hv
  rw [h.get?_of_entries_eq_nil hempty] at hv
  contradiction

end Staged.Carried

namespace Session

variable {c : Catalog} {s : Session}

theorem closed_filing : Editing.Closed (Session.Filing c) where
  put s k v w hs hadmits hput := by
    have hstaging := Staging.put ⟨hs.valid, rfl, rfl⟩ hput
    exact ⟨hs.catalog_eq, hstaging.valid, hstaging.staged_eq ▸ hs.carried.update_upsert hadmits.carries,
      hs.room_eq⟩
  erase s bs w hs hdelete := by
    have hstaging := Staging.delete ⟨hs.valid, rfl, rfl⟩ hdelete
    exact ⟨hs.catalog_eq, hstaging.valid, hstaging.staged_eq ▸ hs.carried.update_remnant _ bs, hs.room_eq⟩
  rollback s hs := ⟨hs.catalog_eq, hs.valid.reset.1,
    .of_entries_eq_nil hs.valid.reset.1.overlay hs.valid.overlay.reset.2, hs.room_eq⟩

theorem Filing.rebase (hs : s.Filing c) {snapshot : Snapshot}
    (hvalid : (snapshot.table c.tables.objects).Valid KeyOrder.lexicographic) :
    (s.rebase snapshot).Filing c := by
  have hreset := hs.valid.reset.1
  exact ⟨hs.catalog_eq, hreset.refresh (hs.catalog_eq ▸ hvalid),
    .of_entries_eq_nil hreset.overlay hs.valid.overlay.reset.2, hs.room_eq⟩

theorem Filing.withRecorders (hs : s.Filing c) {id : CommitId} {x x' : WriteTxn} {result : Except Error Unit}
    {recorders : Recorders} (hrun : (s.publish id).run (x, s.recorders) = (result, x', recorders)) :
    { s with recorders }.Filing c := by
  have hkept := s.publish_alike id (r := s.recorders) (x, s.recorders) (.refl _)
  rw [hrun] at hkept
  have halike : s.recorders.Alike recorders := by
    cases result <;> exact hkept
  refine ⟨hs.catalog_eq, hs.valid, hs.carried, fun hwritable => ?_⟩
  exact halike.draft_eq.trans (hs.room_eq hwritable)

end Session

structure Database.Archives (records : List (Commit × Bytes)) (db : Database) : Prop where
  tables_eq : db.catalog.tables = ⟨0, 1, 2, 3⟩
  names_eq : db.store.committed.tables.map Table.name = Database.tableNames
  proper : db.sequence.Proper
  objects : ∃ table, db.store.committed.tables[db.catalog.tables.objects]? = some table ∧
    table.Valid KeyOrder.lexicographic ∧ Carried table.get?
  archive : ∃ history index, db.store.committed.tables[db.catalog.tables.history]? = some history ∧
    db.store.committed.tables[db.catalog.tables.historyByObject]? = some index ∧
    Archived db.sequence.latest records history index

variable {schema : Schema} {config : Config} {records : List (Commit × Bytes)} {db db' : Database}

namespace Database.Archives

theorem agrees (h : db.Archives records) : db.history.Agrees records := by
  obtain ⟨history, index, hhistory, hindex, harchived⟩ := h.archive
  exact harchived.agrees hhistory hindex

theorem distinct (h : db.Archives records) : db.catalog.tables.Distinct := by
  rw [h.tables_eq]
  exact @fresh_distinct 0 db.catalog.schema db.catalog.config

theorem fresh {mapSize : Nat} : (Database.fresh mapSize schema config).Archives [] where
  tables_eq := rfl
  names_eq := rfl
  proper := .inl rfl
  objects := ⟨_, rfl, ⟨rfl, .nil⟩, nofun⟩
  archive := ⟨_, _, rfl, rfl, ⟨rfl, .nil, rfl, nofun, nofun⟩, nofun, nofun, ⟨rfl, .nil⟩, by simp⟩

theorem session (h : db.Archives records) {writable : Bool} {s : Session}
    (hs : db.session writable = .ok s) : s.Filing db.catalog := by
  obtain ⟨table, htable, hvalid, -⟩ := h.objects
  obtain ⟨capacity, w, recorders, hw, hrecorders, rfl⟩ := Session.create_eq_ok hs
  rw [Snapshot.table_eq htable] at hw
  obtain ⟨hworkspace, -, hentries⟩ := Workspace.create_spec hvalid hw
  exact ⟨rfl, hworkspace, .of_entries_eq_nil hworkspace.overlay hentries,
    fun hwritable => Recorders.room_of_create (hrecorders hwritable)⟩

theorem rebuildSearch (h : db.Archives records) {field : Id} {count : Nat}
    (hrebuild : db.rebuildSearch field = .ok (count, db')) :
    db'.Archives records ∧ db'.catalog = db.catalog ∧ db'.objects = db.objects := by
  obtain ⟨table, htable, hvalid, hcarried⟩ := h.objects
  obtain ⟨history, index, hhistory, hindex, harchived⟩ := h.archive
  obtain ⟨x, hrun, rfl⟩ := Database.exists_of_rebuildSearch hrebuild
  have hframe := Rebuild.frame_of_run hrun
  have hobjects := (hframe.getElem?_eq _ h.distinct.objects_ne_search).trans htable
  refine ⟨⟨h.tables_eq, hframe.names_eq.trans h.names_eq, h.proper, ⟨table, hobjects, hvalid, hcarried⟩,
    history, index, ?_, ?_, harchived⟩, rfl, ?_⟩
  · exact (hframe.getElem?_eq _ h.distinct.search_ne_history.symm).trans hhistory
  · exact (hframe.getElem?_eq _ h.distinct.search_ne_historyByObject.symm).trans hindex
  · rw [objects_eq htable]
    exact @objects_eq ⟨db.catalog, db.store.publish x, db.sequence⟩ _ hobjects

theorem ofStore (h : db.Archives records) {mapSize : Nat}
    (hopen : Database.ofStore ⟨mapSize, db.store.committed⟩ config = .ok db') :
    db'.Archives records ∧ db'.catalog.config = config := by
  obtain ⟨table, htable, hvalid, hcarried⟩ := h.objects
  obtain ⟨history, index, hhistory, hindex, harchived⟩ := h.archive
  rw [h.tables_eq] at htable hhistory hindex
  obtain ⟨schema, hresume⟩ :=
    ofStore_eq_ok (@openTables_eq ⟨mapSize, db.store.committed⟩ h.names_eq) hopen
  obtain ⟨last, hread, hend⟩ := Stateful.bind_eq_ok.mp hresume
  have hlast := harchived.chronicles.lastCommit?_eq (h := ⟨db.store.committed, ⟨0, 1, 2, 3⟩⟩) hhistory
  cases hread.symm.trans hlast
  -- the new sequence goes on from the last identifier in the store
  have hstate : db' = ⟨⟨⟨0, 1, 2, 3⟩, schema, config⟩, ⟨mapSize, db.store.committed⟩,
      ⟨records.getLast?.elim 0 fun p => p.1.id.toNat⟩⟩ := by
    cases hrecords : records.getLast? with
    | none =>
      rw [hrecords] at hend
      cases hend
      rfl
    | some p =>
      rw [hrecords] at hend
      cases hend
      rfl
  subst hstate
  obtain ⟨hproper, hresumed⟩ := harchived.resumed rfl
  exact ⟨⟨rfl, h.names_eq, hproper, ⟨table, htable, hvalid, hcarried⟩, history, index, hhistory, hindex,
    hresumed⟩, rfl⟩

end Database.Archives

theorem nothing_added (P : List (Commit × Bytes) → Prop) {d d' : List Entry} (h : P records)
    (hsame : d' = d) : ∃ added, P (records ++ added) ∧ added.length = if d' = d then 0 else 1 :=
  ⟨[], by rwa [List.append_nil], by rw [if_pos hsame]; rfl⟩

namespace Working

variable {w w' : Work}

theorem archives_of_commits {stamp : Stamp} {result : Except Error (Option CommitId)}
    (hhistory : w.database.catalog.config.history = true) (hdb : w.database.Archives records)
    (hs : w.session.Filing w.database.catalog) (hunspent : w.database.sequence.latest ≠ CommitId.greatest)
    (h : Commits stamp w result w') :
    w'.database.catalog = w.database.catalog ∧ w'.session.Filing w.database.catalog ∧
      ∃ added, w'.database.Archives (records ++ added) ∧
        added.length = if w'.database.objects = w.database.objects then 0 else 1 := by
  cases h with
  | readOnly => exact ⟨rfl, hs, nothing_added (Database.Archives · w.database) hdb rfl⟩
  | clean => exact ⟨rfl, hs, nothing_added (Database.Archives · w.database) hdb rfl⟩
  | @failed c sequence e x recorders hnext hrun =>
    obtain ⟨hproper, -, hlt⟩ := CommitSequence.next_spec hdb.proper hnext
    obtain ⟨history, index, hrecords, hindex, harchived⟩ := hdb.archive
    have harchives : Database.Archives records { w.database with sequence } :=
      ⟨hdb.tables_eq, hdb.names_eq, hproper, hdb.objects, history, index, hrecords, hindex,
        harchived.mono (Nat.le_of_lt (hlt hunspent))⟩
    exact ⟨rfl, hs.withRecorders hrun, nothing_added (Database.Archives · { w.database with sequence }) harchives rfl⟩
  | @published c sequence x recorders hnext hwritable _ hrun =>
    obtain ⟨hproper, hc, hlt⟩ := CommitSequence.next_spec hdb.proper hnext
    obtain ⟨table, htable, hvalid, hcarried⟩ := hdb.objects
    obtain ⟨history, index, hrecords, hindex, harchived⟩ := hdb.archive
    have hcatalog := hs.catalog_eq
    have hdistinct : w.session.catalog.tables.Distinct := hcatalog ▸ hdb.distinct
    have hbefore : w.database.store.beginWrite.working.tables[w.session.catalog.tables.objects]? =
      some table := hcatalog ▸ htable
    have hroom : w.session.recorders.room =
        some (min w.database.catalog.config.arenaCapacity Quota.maxCapacity) := by
      rw [hs.room_eq hwritable, Config.recordRoom, if_pos hhistory]
    obtain ⟨added, history', index', hrecords', hindex', hfiles, hlength⟩ :=
      Session.publish_files hrun hdistinct hroom (Nat.min_le_right _ _) hbefore hvalid hs.valid.overlay hcarried
        hs.carried (hcatalog ▸ hrecords) (hcatalog ▸ hindex)
    have hafter := Session.objects_of_publish hrun hdistinct hbefore
    have hnames := Session.names_of_publish hrun hbefore
    rw [hcatalog] at hafter hrecords' hindex'
    rw [hvalid.order_eq] at hafter
    have hvalid' := hvalid.override w.session.workspace.overlay.entries
    have hpositive : sequence.latest ≠ 0 := Nat.ne_of_gt (Nat.lt_of_le_of_lt (Nat.zero_le _) (hlt hunspent))
    have harchived' := harchived.files (hc ▸ hlt hunspent) (hc ▸ hproper.resolve_left hpositive) hfiles
    refine ⟨rfl, (hs.withRecorders hrun).rebase ?_, added, ⟨hdb.tables_eq, hnames.trans hdb.names_eq, hproper,
      ⟨_, hafter, hvalid', hcarried.override hvalid hs.valid.overlay hs.carried⟩,
      history', index', hrecords', hindex', hc ▸ harchived'⟩, ?_⟩
    · rw [Snapshot.table_eq hafter]
      exact hvalid'
    · have hobjects : Database.objects ⟨w.database.catalog, w.database.store.publish x, sequence⟩ =
          Staged.override KeyOrder.lexicographic table.entries w.session.workspace.overlay.entries :=
        @Database.objects_eq ⟨w.database.catalog, w.database.store.publish x, sequence⟩ _ hafter
      rw [hlength, Database.objects_eq htable]
      simp only [hobjects]

end Working

namespace Database

theorem archives_of_create {mapSize : Nat} {stamp : Stamp} (hhistory : config.history = true)
    (h : create (Store.empty mapSize) schema config stamp = .ok db) :
    db.catalog.config = config ∧
      ∃ records, db.Archives records ∧ records.length = if db.objects = [] then 0 else 1 := by
  obtain ⟨s, w, c, w', hs, hstore, hcommit, rfl⟩ := create_eq_ok h
  have hfresh : (fresh mapSize schema config).Archives [] := .fresh
  rw [Working.edit_run] at hstore
  obtain ⟨hok, rfl⟩ := Prod.mk.inj hstore
  have hstored := (Schema.keeps_store Session.closed_filing schema).ok (hfresh.session hs)
    (Prod.ext hok rfl)
  obtain ⟨hcatalog, -, added, harchives, hlength⟩ := Working.archives_of_commits hhistory hfresh hstored
    (by decide : 0 ≠ CommitId.greatest) (Working.commits_of_run hcommit)
  exact ⟨congrArg Catalog.config hcatalog, added, harchives, hlength⟩

end Database

structure System.Archives (records : List (Commit × Bytes)) (s : System) : Prop where
  recording : s.database.catalog.config.history = true
  database : s.database.Archives records
  sessions : ∀ t ∈ s.sessions, t.Filing s.database.catalog

theorem System.Archives.moves {s s' : System} {result : Except Error Unit} (h : s.Archives records)
    (hunspent : s.database.sequence.latest ≠ CommitId.greatest) (hmove : s.Moves result s') :
    ∃ added, s'.Archives (records ++ added) ∧
      added.length = if s'.database.objects = s.database.objects then 0 else 1 := by
  cases hmove with
  | apart hsessions =>
    refine nothing_added (System.Archives · ⟨s.database, _⟩) ⟨h.recording, h.database, fun t ht => ?_⟩ rfl
    rcases hsessions t ht with hold | ⟨writable, hopened⟩ | ⟨u, hu, actor, rfl⟩
    · exact h.sessions t hold
    · exact h.database.session hopened
    · obtain ⟨hcatalog, hvalid, hcarried, hroom⟩ := h.sessions u hu
      exact ⟨hcatalog, hvalid, hcarried, hroom⟩
  | @called call session result w sessions hsession hrun hsessions =>
    have hfiling := h.sessions _ hsession
    suffices hcall : w.database.catalog = s.database.catalog ∧ w.session.Filing s.database.catalog ∧
        ∃ added, w.database.Archives (records ++ added) ∧
          added.length = if w.database.objects = s.database.objects then 0 else 1 by
      obtain ⟨hcatalog, hfiling', added, harchives, hlength⟩ := hcall
      refine ⟨added, ⟨hcatalog ▸ h.recording, harchives, fun t ht => ?_⟩, hlength⟩
      rw [hcatalog]
      rcases hsessions t ht with hold | rfl
      · exact h.sessions t hold
      · exact hfiling'
    cases call with
    | edit edit =>
      obtain ⟨t, ht, rfl⟩ := Working.of_edit_run hrun
      exact ⟨rfl, (Session.closed_filing.keeps_perform edit).of_run hfiling ht,
        nothing_added (Database.Archives · s.database) h.database rfl⟩
    | commit stamp =>
      obtain ⟨committed, hcommits, -⟩ := Working.of_commit_run hrun
      exact Working.archives_of_commits h.recording h.database hfiling hunspent hcommits
  | @rebuilt field count db hrebuild =>
    obtain ⟨harchives, hcatalog, hobjects⟩ := h.database.rebuildSearch hrebuild
    exact nothing_added (System.Archives · ⟨db, s.sessions⟩)
      ⟨hcatalog ▸ h.recording, harchives, hcatalog ▸ h.sessions⟩ hobjects

/-- A store through the lives of its handles: it is created, worked on by sessions, and opened again after
they are gone. All handles record their commits, and none is used once the identifiers are spent. The number
is that of the commits that have changed an object. -/
inductive Lasting : Nat → System → Prop where
  | created {mapSize : Nat} {schema : Schema} {config : Config} {stamp : Stamp} {db : Database} :
      config.history = true → Database.create (Store.empty mapSize) schema config stamp = .ok db →
      Lasting (if db.objects = [] then 0 else 1) ⟨db, []⟩
  | stepped {n : Nat} {s : System} (step : Step) : Lasting n s →
      s.database.sequence.latest ≠ CommitId.greatest →
      Lasting (n + if (step.perform s).2.database.objects = s.database.objects then 0 else 1)
        (step.perform s).2
  | reopened {n mapSize : Nat} {s : System} {config : Config} {db : Database} : Lasting n s →
      config.history = true → Database.ofStore ⟨mapSize, s.database.store.committed⟩ config = .ok db →
      Lasting n ⟨db, []⟩

namespace Lasting

variable {n : Nat} {s : System}

theorem archives (h : Lasting n s) : ∃ records, records.length = n ∧ s.Archives records := by
  induction h with
  | created hhistory hcreate =>
    obtain ⟨hconfig, records, harchives, hlength⟩ := Database.archives_of_create hhistory hcreate
    exact ⟨records, hlength, hconfig ▸ hhistory, harchives, nofun⟩
  | @stepped n s step _ hunspent ih =>
    obtain ⟨records, hlength, harchives⟩ := ih
    obtain ⟨added, harchives', hadded⟩ := harchives.moves hunspent (s.moves step)
    exact ⟨records ++ added, by rw [List.length_append, hlength, hadded], harchives'⟩
  | reopened _ hhistory hopen ih =>
    obtain ⟨records, hlength, harchives⟩ := ih
    obtain ⟨hdb, hconfig⟩ := harchives.database.ofStore hopen
    exact ⟨records, hlength, hconfig ▸ hhistory, hdb, nofun⟩

/-- The history holds one record for each commit that has changed an object, and all its accounts of them
agree. The next step adds one more just if it changes an object, and another handle finds them all. -/
theorem history_agrees (h : Lasting n s) :
    ∃ records : List (Commit × Bytes), records.length = n ∧ s.database.history.Agrees records ∧
      (s.database.sequence.latest ≠ CommitId.greatest → ∀ step : Step,
        let db := (step.perform s).2.database
        ∃ added, db.history.Agrees (records ++ added) ∧
          added.length = if db.objects = s.database.objects then 0 else 1) ∧
      ∀ (mapSize : Nat) (config : Config) (db : Database),
        Database.ofStore ⟨mapSize, s.database.store.committed⟩ config = .ok db →
          db.history.Agrees records := by
  obtain ⟨records, hlength, harchives⟩ := h.archives
  refine ⟨records, hlength, harchives.database.agrees, fun hunspent step => ?_, fun mapSize config db hopen => ?_⟩
  · obtain ⟨added, harchives', hadded⟩ := harchives.moves hunspent (s.moves step)
    exact ⟨added, harchives'.database.agrees, hadded⟩
  · exact (harchives.database.ofStore hopen).1.agrees

def changes : System → List Step → Option Nat
  | _, [] => some 0
  | s, step :: steps =>
    let s' := (step.perform s).2
    if s.database.sequence.latest = CommitId.greatest then none
    else (changes s' steps).map ((if s'.database.objects = s.database.objects then 0 else 1) + ·)

theorem run (h : Lasting n s) {steps : List Step} {k : Nat} (hchanges : changes s steps = some k) :
    Lasting (n + k) (s.run steps).2 := by
  induction steps generalizing n s k with
  | nil =>
    cases hchanges
    exact h
  | cons step steps ih =>
    rw [changes] at hchanges
    split at hchanges
    · contradiction
    next hunspent =>
      obtain ⟨k', hk', rfl⟩ := Option.map_eq_some_iff.mp hchanges
      rw [System.run_cons, ← Nat.add_assoc]
      exact ih (h.stepped step hunspent) hk'

def rounds : List Step × List Step :=
  let create : Edit := .create (Id.ofNat 0x1000) (Id.ofNat 1)
  ([.opened true, .opened true, .called 0 (.edit create), .called 1 (.edit create), .called 0 (.commit ⟨0, 0⟩),
    .called 1 (.commit ⟨0, 0⟩)],
    [.opened true, .called 0 (.edit (.delete (Id.ofNat 1))), .called 0 (.commit ⟨0, 0⟩)])

theorem history_agrees_rounds :
    ∃ s records, Lasting 3 s ∧ s.database.history.Agrees records ∧ records.length = 3 ∧
      (s.database.history.commitsFor (Id.ofNat 1)).map List.length = .ok 2 := by
  let life : Except Error (List (Option Nat) × Nat × System) := do
    let db ← Database.create (Store.empty 10000) Schema.peers {} ⟨0, 0⟩
    let s := ((System.mk db []).run rounds.1).2
    let db' ← Database.ofStore s.database.store {}
    let s' := ((System.mk db' []).run rounds.2).2
    return ([changes ⟨db, []⟩ rounds.1, changes ⟨db', []⟩ rounds.2], if db.objects = [] then 0 else 1, s')
  have hlife : life.toOption.map (fun (changes, n, s) =>
      (changes, n, (s.database.history.commitsFor (Id.ofNat 1)).map List.length)) =
      some ([some 1, some 1], 1, .ok 2) := by decide +kernel
  obtain ⟨⟨counts, n, s⟩, hs, hend⟩ := Option.map_eq_some_iff.mp hlife
  obtain ⟨db, hcreate, hs⟩ := Stateful.bind_eq_ok.mp (Stateful.ok_of_toOption hs)
  obtain ⟨db', hopen, hs⟩ := Stateful.bind_eq_ok.mp hs
  cases hs
  simp only [Prod.mk.injEq, List.cons.injEq, and_true] at hend
  obtain ⟨⟨hfirst, hsecond⟩, hcreated, hcommits⟩ := hend
  have hlasting := (((Lasting.created rfl hcreate).run hfirst).reopened rfl hopen).run hsecond
  rw [hcreated] at hlasting
  obtain ⟨records, hlength, hagrees, -⟩ := history_agrees hlasting
  exact ⟨_, records, hlasting, hagrees, hlength, hcommits⟩

end Lasting

end ObjectGraph

import ObjectGraph.Proofs.Database.Equipment
import ObjectGraph.Proofs.History.Chronicle

namespace ObjectGraph

namespace Database

structure Renews (db db' : Database) : Prop where
  unspent : db.sequence.latest ≠ CommitId.greatest
  renewed : ∀ k, Records.Outlasts (recorded db.objects) (recorded db'.objects) k →
    recorded db'.objects k = none

structure Chronicled (db : Database) : Prop where
  proper : db.sequence.Proper
  told : ∃ table records, db.store.committed.tables[db.catalog.tables.history]? = some table ∧
    table.Chronicles db.sequence.latest records ∧
    (records.map Prod.fst).foldl Commit.replay [] = db.objects

end Database

/-- The states of a database and of the sessions that are open on it, where every call renews what it
alters. -/
inductive Renewing (schema : Schema) (config : Config) : Database → List Session → Prop where
  | created {mapSize : Nat} {stamp : Stamp} {db : Database} :
      Database.create (Store.empty mapSize) schema config stamp = .ok db →
      Renewing schema config db []
  | opened {db : Database} {sessions : List Session} {s : Session} (writable : Bool) :
      Renewing schema config db sessions → db.session writable = .ok s →
      Renewing schema config db (s :: sessions)
  | named {db : Database} {before after : List Session} {s : Session} (actor : Id) :
      Renewing schema config db (before ++ s :: after) →
      Renewing schema config db (before ++ s.withActor actor :: after)
  | called {db : Database} {before after : List Session} {s : Session} {result : Except Error Unit}
      {w : Work} (call : WriterCall) : Renewing schema config db (before ++ s :: after) →
      call.run.run ⟨db, s⟩ = (result, w) → db.Renews w.database →
      Renewing schema config w.database (before ++ w.session :: after)
  | closed {db : Database} {before after : List Session} {s : Session} :
      Renewing schema config db (before ++ s :: after) →
      Renewing schema config db (before ++ after)
  | rebuilt {db db' : Database} {sessions : List Session} {field : Id} {count : Nat} :
      Renewing schema config db sessions → db.rebuildSearch field = .ok (count, db') →
      Renewing schema config db' sessions

variable {schema : Schema} {config : Config} {db db' : Database}

theorem Renewing.interleaved {sessions : List Session} (h : Renewing schema config db sessions) :
    Interleaved schema config db sessions := by
  induction h with
  | created hcreate => exact .created hcreate
  | opened writable _ hs ih => exact ih.opened writable hs
  | named actor _ ih => exact ih.named actor
  | called call _ hrun _ ih => exact ih.called call hrun
  | closed _ ih => exact ih.closed
  | rebuilt _ hrebuild ih => exact ih.rebuilt hrebuild

namespace Working

variable {w w' : Work}

theorem chronicled_of_commits {stamp : Stamp} {result : Except Error (Option CommitId)}
    (hhistory : config.history = true) (hdb : w.database.Equipped schema config)
    (hs : w.session.Equipped w.database.catalog) (h : w.database.Chronicled)
    (hrenews : w.database.Renews w'.database) (hcommits : Commits stamp w result w') :
    w'.database.Chronicled := by
  obtain ⟨history, records, htable, hchronicles, hobjects⟩ := h.told
  cases hcommits with
  | readOnly => exact h
  | clean => exact h
  | @failed c sequence e x recorders hnext _ =>
    obtain ⟨hproper, -, hlt⟩ := CommitSequence.next_spec h.proper hnext
    have hle : w.database.sequence.latest ≤ sequence.latest := Nat.le_of_lt (hlt hrenews.unspent)
    exact ⟨hproper, history, records, htable, hchronicles.mono hle, hobjects⟩
  | @published c sequence x recorders hnext hwritable _ hrun =>
    obtain ⟨hproper, hc, hlt⟩ := CommitSequence.next_spec h.proper hnext
    have hlt := hlt hrenews.unspent
    obtain ⟨table, hbefore, hvalid, hadmitted⟩ := hdb.orderly.objects
    obtain ⟨htold, hafter⟩ := (publish_tells hdb hs hwritable c hbefore hvalid hadmitted).ok rfl hrun
    have hsome : config.recordRoom.isSome := by rw [Config.recordRoom, if_pos hhistory]; rfl
    obtain ⟨deleted, log, history', htracks, htable', horder', htells⟩ :=
      htold.history hsome history htable hchronicles.order_eq
    have hobjects' : Database.objects ⟨w.database.catalog, w.database.store.publish x, sequence⟩ =
        Staged.override KeyOrder.lexicographic table.entries w.session.workspace.overlay.entries :=
      @Database.objects_eq ⟨w.database.catalog, w.database.store.publish x, sequence⟩ _ hafter
    have hreplayed : Event.applyAll log w.database.objects =
        Database.objects ⟨w.database.catalog, w.database.store.publish x, sequence⟩ := by
      have hrenewed := hrenews.renewed
      rw [hobjects', Database.objects_eq hbefore] at hrenewed ⊢
      have hstaged := hadmitted.override hvalid.ascending (hdb.orderly.schema_eq ▸ hs.orderly.staged)
      exact (hadmitted.recording hvalid.ascending).applyAll_eq
        (hstaged.recording (Staged.ascending_override hvalid.ascending)) htracks hrenewed
    rcases htells with ⟨rfl, hsame⟩ | ⟨bs, commit, hdecode, rfl, hreplay, hinserted⟩
    · exact ⟨hproper, history', records, htable',
        (hchronicles.congr horder' hsame).mono (Nat.le_of_lt hlt), hobjects.trans hreplayed⟩
    · have happended := hchronicles.append hdecode (hc ▸ hlt) horder' hinserted
      refine ⟨hproper, history', _, htable', hc ▸ happended, ?_⟩
      rw [List.map_append, List.foldl_append, hobjects]
      exact (hreplay _).trans hreplayed

theorem chronicled_of_call {call : WriterCall} {result : Except Error Unit}
    (hhistory : config.history = true) (hdb : w.database.Equipped schema config)
    (hs : w.session.Equipped w.database.catalog) (h : w.database.Chronicled)
    (hrenews : w.database.Renews w'.database) (hrun : call.run.run w = (result, w')) :
    w'.database.Chronicled := by
  cases call with
  | edit e =>
    obtain ⟨s, -, rfl⟩ := of_edit_run hrun
    exact h
  | commit stamp =>
    obtain ⟨committed, hcommits, -⟩ := of_commit_run hrun
    exact chronicled_of_commits hhistory hdb hs h hrenews hcommits

end Working

namespace Database

theorem fresh_chronicled {mapSize : Nat} : (fresh mapSize schema config).Chronicled where
  proper := .inl rfl
  told := ⟨_, [], rfl, ⟨rfl, .nil, rfl, nofun, nofun⟩, rfl⟩

theorem fresh_renews {mapSize : Nat} : (fresh mapSize schema config).Renews db where
  unspent := (by decide : 0 ≠ CommitId.greatest)
  renewed := fun k hk => absurd rfl hk.2.1.1

theorem chronicled_of_create {mapSize : Nat} {stamp : Stamp} (hhistory : config.history = true)
    (h : create (Store.empty mapSize) schema config stamp = .ok db) : db.Chronicled := by
  obtain ⟨s, w, c, w', hs, hstore, hcommit, rfl⟩ := create_eq_ok h
  have hfresh : (fresh mapSize schema config).Equipped schema config := fresh_equipped
  rw [Working.edit_run] at hstore
  obtain ⟨hok, rfl⟩ := Prod.mk.inj hstore
  have hstored := (Schema.keeps_store Session.closed_equipped schema).ok (hfresh.session hs)
    (Prod.ext hok rfl)
  exact Working.chronicled_of_commits hhistory hfresh hstored fresh_chronicled fresh_renews
    (Working.commits_of_run hcommit)

theorem Chronicled.rebuildSearch (h : db.Chronicled) (hdistinct : db.catalog.tables.Distinct)
    {field : Id} {count : Nat} (hrebuild : db.rebuildSearch field = .ok (count, db')) :
    db'.Chronicled := by
  obtain ⟨table, records, htable, hchronicles, hobjects⟩ := h.told
  obtain ⟨x, hrun, rfl⟩ := Database.exists_of_rebuildSearch hrebuild
  have hframe := Rebuild.frame_of_run hrun
  refine ⟨h.proper, table, records, ?_, hchronicles, hobjects.trans ?_⟩
  · exact (hframe.getElem?_eq _ hdistinct.search_ne_history.symm).trans htable
  · have hsame := hframe.getElem?_eq _ hdistinct.objects_ne_search
    change (db.store.committed.tables.getD _ _).entries = (x.working.tables.getD _ _).entries
    rw [List.getD_eq_getElem?_getD, List.getD_eq_getElem?_getD, hsame]
    rfl

end Database

theorem Renewing.chronicled {sessions : List Session} (h : Renewing schema config db sessions)
    (hhistory : config.history = true) : db.Chronicled := by
  induction h with
  | created hcreate => exact Database.chronicled_of_create hhistory hcreate
  | opened _ _ _ ih => exact ih
  | named _ _ ih => exact ih
  | called call hbefore hrun hrenews ih =>
    obtain ⟨hdb, hsessions⟩ := hbefore.interleaved.equipped
    exact Working.chronicled_of_call hhistory hdb (hsessions _ (by simp)) ih hrenews hrun
  | closed _ ih => exact ih
  | rebuilt hbefore hrebuild ih =>
    exact ih.rebuildSearch hbefore.interleaved.equipped.1.orderly.distinct hrebuild

/-- The decoded records of all commits, in the order of their identifiers, lead from an empty table to the
committed objects. -/
theorem Renewing.replay_eq {sessions : List Session} (h : Renewing schema config db sessions)
    (hhistory : config.history = true) :
    db.history.replay = .ok (db.store.committed.table db.catalog.tables.objects).entries := by
  obtain ⟨table, records, htable, hchronicles, hobjects⟩ := (h.chronicled hhistory).told
  have hreplay := hchronicles.replay_history (h := db.history) htable
  rw [hreplay, hobjects]
  rfl

def Schema.parts : Schema :=
  ((builtin.withType { id := Id.ofNat 0x1000, name := "item" }).withType
      { id := Id.ofNat 0x1002, name := "part", parent := some (Id.ofNat 0x1000) }).withField
    { id := Id.ofNat 0x1001, name := "count", owner := Id.ofNat 0x1000, type := .enum }

def WriterCall.retyping (first second : UInt32) : List WriterCall :=
  let a := Id.ofNat 1
  let count := Id.ofNat 0x1001
  [.edit (.create (Id.ofNat 0x1000) a), .edit (.setValue a count (Value.enum first).encode),
    .commit ⟨0, 0⟩, .edit (.delete a), .edit (.create (Id.ofNat 0x1002) a),
    .edit (.setValue a count (Value.enum second).encode), .commit ⟨0, 0⟩]

/-- A value that an object has before and after a change of its type is no event, but the deletion of the
object is. -/
theorem SingleWriter.replay_lacks_value :
    ∃ db s, SingleWriter Schema.parts db (some s) ∧ db.catalog.config.history = true ∧
      db.history.replay ≠ .ok (db.store.committed.table db.catalog.tables.objects).entries := by
  have hscript : ((WriterCall.script Schema.parts 10000 (WriterCall.retyping 5 5)).toOption.map
      fun w => (w.database.catalog.config.history, w.database.history.replay.toOption.map List.length,
        w.database.objects.length)) = some (true, some 11, 12) := by decide +kernel
  obtain ⟨w, hw, hlengths⟩ := Option.map_eq_some_iff.mp hscript
  obtain ⟨hhistory, hlengths⟩ := Prod.mk.inj hlengths
  obtain ⟨hreplayed, hcommitted⟩ := Prod.mk.inj hlengths
  refine ⟨_, _, SingleWriter.of_script (Stateful.ok_of_toOption hw), hhistory, fun heq => ?_⟩
  rw [heq] at hreplayed
  have hlength : w.database.objects.length = 11 := Option.some.inj hreplayed
  omega

def WriterCall.renew : List WriterCall → Work → Bool
  | [], _ => true
  | call :: calls, w =>
    let w' := (call.run.run w).2
    decide (w.database.sequence.latest ≠ CommitId.greatest ∧
      ∀ e ∈ w'.database.objects, ∀ k ∈ Key.ofBytes? e.1,
        ¬ Records.Outlasts (recorded w.database.objects) (recorded w'.database.objects) k) &&
      renew calls w'

theorem Renewing.calls {w : Work} (h : Renewing schema config w.database [w.session])
    {calls : List WriterCall} (hrenew : WriterCall.renew calls w) :
    ∃ w', w' = calls.foldl (fun w call => (call.run.run w).2) w ∧
      Renewing schema config w'.database [w'.session] := by
  induction calls generalizing w with
  | nil => exact ⟨w, rfl, h⟩
  | cons call calls ih =>
    rw [WriterCall.renew, Bool.and_eq_true, decide_eq_true_eq] at hrenew
    obtain ⟨⟨hunspent, hall⟩, hrest⟩ := hrenew
    refine ih (@called _ _ _ [] [] _ _ _ call h rfl ⟨hunspent, fun k houtlasts => ?_⟩) hrest
    cases hk : recorded (call.run.run w).2.database.objects k with
    | none => rfl
    | some v =>
      obtain ⟨e, he, -⟩ := Option.map_eq_some_iff.mp hk
      obtain ⟨hmem, heq⟩ := Dictionary.mem_and_eq_of_find? he
      rw [KeyOrder.lexicographic_eq_iff] at heq
      exact absurd houtlasts (hall e hmem k (heq ▸ Key.ofBytes?_bytes k))

theorem Renewing.replay_eq_parts :
    ∃ db s, Renewing Schema.parts {} db [s] ∧ db.objects.length = 12 ∧
      db.history.replay = .ok (db.store.committed.table db.catalog.tables.objects).entries := by
  have hscript : ((WriterCall.script Schema.parts 10000 []).toOption.map fun w =>
      (WriterCall.renew (WriterCall.retyping 5 6) w,
        ((WriterCall.retyping 5 6).foldl (fun w call => (call.run.run w).2) w).database.objects.length)) =
      some (true, 12) := by decide +kernel
  obtain ⟨w, hw, hchecks⟩ := Option.map_eq_some_iff.mp hscript
  obtain ⟨hrenew, hlength⟩ := Prod.mk.inj hchecks
  obtain ⟨db, hcreate, hrun⟩ := Stateful.bind_eq_ok.mp (Stateful.ok_of_toOption hw)
  obtain ⟨s, hs, hrun⟩ := Stateful.bind_eq_ok.mp hrun
  cases hrun
  have hcreated : Renewing Schema.parts {} db [] := .created hcreate
  obtain ⟨w', rfl, hrenewing⟩ := (hcreated.opened true hs).calls hrenew
  exact ⟨_, _, hrenewing, hlength, hrenewing.replay_eq rfl⟩

end ObjectGraph

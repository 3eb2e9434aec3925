import ObjectGraph.Proofs.Database.Commit
import ObjectGraph.Proofs.Search.Rebuild
import ObjectGraph.Proofs.Session.Indexing
import ObjectGraph.Proofs.Session.Writes
/-!
However sessions overlap, commit, fail and go back, and whenever fields are rebuilt, the search table
holds just the keys that are derived from the committed objects.
-/

namespace ObjectGraph

open Stateful (Triple)

/-- The states of a database and of the sessions that are open on it. -/
inductive Interleaved (schema : Schema) (config : Config) : Database → List Session → Prop where
  | created {mapSize : Nat} {stamp : Stamp} {db : Database} :
      Database.create (Store.empty mapSize) schema config stamp = .ok db →
      Interleaved schema config db []
  | opened {db : Database} {sessions : List Session} {s : Session} (writable : Bool) :
      Interleaved schema config db sessions → db.session writable = .ok s →
      Interleaved schema config db (s :: sessions)
  | named {db : Database} {before after : List Session} {s : Session} (actor : Id) :
      Interleaved schema config db (before ++ s :: after) →
      Interleaved schema config db (before ++ s.withActor actor :: after)
  | called {db : Database} {before after : List Session} {s : Session} {result : Except Error Unit}
      {w : Work} (call : WriterCall) : Interleaved schema config db (before ++ s :: after) →
      call.run.run ⟨db, s⟩ = (result, w) →
      Interleaved schema config w.database (before ++ w.session :: after)
  | closed {db : Database} {before after : List Session} {s : Session} :
      Interleaved schema config db (before ++ s :: after) →
      Interleaved schema config db (before ++ after)
  | rebuilt {db db' : Database} {sessions : List Session} {field : Id} {count : Nat} :
      Interleaved schema config db sessions → db.rebuildSearch field = .ok (count, db') →
      Interleaved schema config db' sessions

theorem Interleaved.invariant {schema : Schema} {config : Config} {db : Database}
    {sessions : List Session} {D : Database → Prop} {S : Catalog → Session → Prop}
    (created : ∀ {mapSize stamp db},
      Database.create (Store.empty mapSize) schema config stamp = .ok db → D db)
    (opened : ∀ {db : Database} {writable s}, D db → db.session writable = .ok s → S db.catalog s)
    (named : ∀ {c} {s : Session} (actor), S c s → S c (s.withActor actor))
    (called : ∀ {call : WriterCall} {w w' : Work} {result}, D w.database →
      S w.database.catalog w.session → call.run.run w = (result, w') →
        D w'.database ∧ w'.database.catalog = w.database.catalog ∧ S w.database.catalog w'.session)
    (rebuilt : ∀ {db db' : Database} {field count}, D db → db.rebuildSearch field = .ok (count, db') →
      D db' ∧ db'.catalog = db.catalog)
    (h : Interleaved schema config db sessions) : D db ∧ ∀ s ∈ sessions, S db.catalog s := by
  induction h with
  | created hcreate => exact ⟨created hcreate, nofun⟩
  | opened writable _ hs ih =>
    obtain ⟨hdb, hsessions⟩ := ih
    refine ⟨hdb, ?_⟩
    intro s hmem
    rcases List.mem_cons.mp hmem with rfl | hmem
    · exact opened hdb hs
    · exact hsessions s hmem
  | named actor _ ih =>
    obtain ⟨hdb, hsessions⟩ := ih
    simp only [List.forall_mem_append, List.forall_mem_cons] at hsessions ⊢
    obtain ⟨hbefore, hs, hafter⟩ := hsessions
    exact ⟨hdb, hbefore, named actor hs, hafter⟩
  | called call _ hrun ih =>
    obtain ⟨hdb, hsessions⟩ := ih
    simp only [List.forall_mem_append, List.forall_mem_cons] at hsessions ⊢
    obtain ⟨hbefore, hs, hafter⟩ := hsessions
    obtain ⟨hdb', hcatalog, hs'⟩ := called hdb hs hrun
    rw [hcatalog]
    exact ⟨hdb', hbefore, hs', hafter⟩
  | closed _ ih =>
    obtain ⟨hdb, hsessions⟩ := ih
    simp only [List.forall_mem_append, List.forall_mem_cons] at hsessions ⊢
    exact ⟨hdb, hsessions.1, hsessions.2.2⟩
  | rebuilt _ hrebuild ih =>
    obtain ⟨hdb, hsessions⟩ := ih
    obtain ⟨hdb', hcatalog⟩ := rebuilt hdb hrebuild
    exact ⟨hdb', hcatalog ▸ hsessions⟩

structure Session.Ready (c : Catalog) (s : Session) : Prop where
  catalog_eq : s.catalog = c
  valid : s.workspace.Valid KeyOrder.lexicographic
  filled : ∀ e ∈ s.workspace.overlay.entries, Staged.Filled e
  marking : s.writable = true → s.recorders.Has Indexer.Marking

structure Database.InStep (schema : Schema) (db : Database) : Prop where
  schema_eq : db.catalog.schema = schema
  search_eq : db.catalog.config.search = true
  distinct : db.catalog.tables.Distinct
  indexed : ∃ objects search, db.store.committed.Indexed db.catalog objects search

variable {schema : Schema} {config : Config} {db db' : Database} {c : Catalog}

theorem Session.closed_ready : Editing.Closed (Session.Ready c) where
  put := by
    intro s k v w hs hv hput
    obtain ⟨hvalid, -, -⟩ := hs.valid.put hput
    obtain ⟨o, ho, rfl⟩ := Workspace.put_eq_ok hput
    obtain ⟨-, hentries⟩ := hs.valid.overlay.put ho
    refine ⟨hs.catalog_eq, hvalid, ?_, hs.marking⟩
    intro e he
    rw [hentries, Dictionary.mem_insert hs.valid.overlay.ascending] at he
    rcases he with rfl | ⟨he, -⟩
    · intro object field hkey hempty
      rw [Key.bytes_injective hkey] at hv
      exact hv.ne_nil (Option.some.inj hempty)
    · exact hs.filled e he
  erase := by
    intro s bs w hs hdelete
    obtain ⟨hvalid, -, -⟩ := hs.valid.delete hdelete
    refine ⟨hs.catalog_eq, hvalid, ?_, hs.marking⟩
    intro e he
    rcases Workspace.delete_eq_ok hdelete with ⟨-, o, ho, rfl⟩ | ⟨-, rfl⟩
    · obtain ⟨-, hentries⟩ := hs.valid.overlay.put ho
      rw [hentries, Dictionary.mem_insert hs.valid.overlay.ascending] at he
      rcases he with rfl | ⟨he, -⟩
      · exact fun _ _ _ => nofun
      · exact hs.filled e he
    · obtain ⟨-, hentries⟩ := hs.valid.overlay.remove bs
      rw [hentries] at he
      exact hs.filled e ((Dictionary.erase_sublist bs _).subset he)
  rollback := by
    intro s hs
    refine ⟨hs.catalog_eq, hs.valid.reset.1, ?_, hs.marking⟩
    intro e he
    rw [Session.rollback, Workspace.reset, hs.valid.overlay.reset.2] at he
    contradiction

theorem Recorders.has_of_create (hsearch : config.search = true) {r : Recorders}
    (h : create config = .ok r) : r.Has Indexer.Marking := by
  have hdraft (draft : Option Draft)
      (h : (do
        let indexer ← some <$> Indexer.create config.arenaCapacity config.pageSize
        return ⟨draft, indexer⟩) = Except.ok r) : r.Has Indexer.Marking := by
    obtain ⟨_, hindexer, h⟩ := Stateful.bind_eq_ok.mp h
    obtain ⟨i, hi, rfl⟩ := Stateful.map_eq_ok.mp hindexer
    cases h
    exact ⟨i, rfl, (Indexer.turns_of_create hi fun _ => False).marking⟩
  simp only [create, hsearch, if_true] at h
  split at h
  · obtain ⟨draft, -, h⟩ := Stateful.bind_eq_ok.mp h
    exact hdraft draft h
  · exact hdraft none h

theorem Database.InStep.session (h : db.InStep schema) {writable : Bool} {s : Session}
    (hs : db.session writable = .ok s) : s.Ready db.catalog := by
  obtain ⟨objects, search, hindexed⟩ := h.indexed
  obtain ⟨capacity, w, recorders, hw, hrecorders, rfl⟩ := Session.create_eq_ok hs
  rw [Snapshot.table_eq hindexed.objects_eq] at hw
  obtain ⟨hvalid, -, hentries⟩ := Workspace.create_spec hindexed.valid hw
  have hfilled : ∀ e ∈ w.overlay.entries, Staged.Filled e := by
    rw [hentries]
    nofun
  exact ⟨rfl, hvalid, hfilled, fun hwritable => Recorders.has_of_create h.search_eq (hrecorders hwritable)⟩

theorem Working.inStep_of_commits {stamp : Stamp} {w w' : Work}
    {result : Except Error (Option CommitId)} (hdb : w.database.InStep schema)
    (hs : w.session.Ready w.database.catalog) (h : Commits stamp w result w') :
    w'.database.InStep schema ∧ w'.database.catalog = w.database.catalog ∧
      w'.session.Ready w.database.catalog := by
  obtain ⟨objects, search, hindexed⟩ := hdb.indexed
  have hdistinct : w.session.catalog.tables.Distinct := hs.catalog_eq ▸ hdb.distinct
  cases h with
  | readOnly => exact ⟨hdb, rfl, hs⟩
  | clean => exact ⟨hdb, rfl, hs⟩
  | @failed c sequence e x recorders _ hrun =>
    refine ⟨⟨hdb.schema_eq, hdb.search_eq, hdb.distinct, hdb.indexed⟩, rfl,
      hs.catalog_eq, hs.valid, hs.filled, fun hwritable => ?_⟩
    exact (Session.publish_triple hdistinct hs.filled).error
      ⟨hs.catalog_eq ▸ hindexed, hs.marking hwritable⟩ hrun
  | @published c sequence x recorders _ hwritable _ hrun =>
    obtain ⟨⟨objects', search', hindexed'⟩, hmarking⟩ :=
      (Session.publish_triple hdistinct hs.filled).ok
        ⟨hs.catalog_eq ▸ hindexed, hs.marking hwritable⟩ hrun
    rw [hs.catalog_eq] at hindexed'
    have hobjects := Snapshot.table_eq hindexed'.objects_eq
    refine ⟨⟨hdb.schema_eq, hdb.search_eq, hdb.distinct, objects', search', hindexed'⟩, rfl,
      hs.catalog_eq, ?_, ?_, fun _ => hmarking⟩
    · rw [Session.rebase, hs.catalog_eq, hobjects]
      exact hs.valid.reset.1.refresh hindexed'.valid
    · intro e he
      have hempty : ({ w.session with recorders }.rebase x.working).workspace.overlay.entries = [] := rfl
      rw [hempty] at he
      contradiction

theorem Working.inStep_of_call {call : WriterCall} {w w' : Work} {result : Except Error Unit}
    (hdb : w.database.InStep schema) (hs : w.session.Ready w.database.catalog)
    (hrun : call.run.run w = (result, w')) :
    w'.database.InStep schema ∧ w'.database.catalog = w.database.catalog ∧
      w'.session.Ready w.database.catalog := by
  cases call with
  | edit e =>
    obtain ⟨s, hs', rfl⟩ := of_edit_run hrun
    exact ⟨hdb, rfl, (Session.closed_ready.keeps_perform e).of_run hs hs'⟩
  | commit stamp =>
    obtain ⟨committed, hcommits, -⟩ := of_commit_run hrun
    exact inStep_of_commits hdb hs hcommits

namespace Database

theorem fresh_inStep {mapSize : Nat} (hsearch : config.search = true) :
    (fresh mapSize schema config).InStep schema where
  schema_eq := rfl
  search_eq := hsearch
  distinct := fresh_distinct
  indexed := by
    refine ⟨_, _, rfl, rfl, ⟨rfl, .nil⟩, nofun, rfl, .nil, fun key => ?_⟩
    constructor
    · nofun
    · rintro ⟨_, _, _, ⟨⟩, _⟩

theorem inStep_of_create {mapSize : Nat} {stamp : Stamp} (hsearch : config.search = true)
    (h : create (Store.empty mapSize) schema config stamp = .ok db) : db.InStep schema := by
  obtain ⟨s, w, c, w', hs, hstore, hcommit, rfl⟩ := create_eq_ok h
  have hfresh : (fresh mapSize schema config).InStep schema := fresh_inStep hsearch
  have hready := hfresh.session hs
  rw [Working.edit_run] at hstore
  obtain ⟨hok, rfl⟩ := Prod.mk.inj hstore
  have hstored := (Schema.keeps_store Session.closed_ready schema).ok hready (Prod.ext hok rfl)
  exact (Working.inStep_of_commits hfresh hstored (Working.commits_of_run hcommit)).1

theorem InStep.rebuildSearch (h : db.InStep schema) {field : Id} {count : Nat}
    (hrebuild : db.rebuildSearch field = .ok (count, db')) :
    db'.InStep schema ∧ db'.catalog = db.catalog := by
  obtain ⟨objects, search, hindexed⟩ := h.indexed
  obtain ⟨x, hrun, rfl⟩ := Database.exists_of_rebuildSearch hrebuild
  obtain ⟨hobjects, search', hsearch, hlists⟩ := Rebuild.lists_derived h.distinct.objects_ne_search
    hindexed.objects_eq hindexed.search_eq hindexed.lists hrun
  exact ⟨⟨h.schema_eq, h.search_eq, h.distinct, objects, search', hobjects, hsearch, hindexed.valid,
    hindexed.valued, hlists⟩, rfl⟩

end Database

theorem Interleaved.inStep {sessions : List Session} (h : Interleaved schema config db sessions)
    (hsearch : config.search = true) :
    db.InStep schema ∧ ∀ s ∈ sessions, s.Ready db.catalog := by
  apply h.invariant
  · exact Database.inStep_of_create hsearch
  · exact fun hdb hs => hdb.session hs
  · exact fun _ hs => ⟨hs.catalog_eq, hs.valid, hs.filled, hs.marking⟩
  · exact Working.inStep_of_call
  · exact fun hdb hrebuild => hdb.rebuildSearch hrebuild

/-- The keys of the committed search table are those derived from the committed objects, each of them
once, and every committed value of an indexed field can be read. -/
theorem Interleaved.search_eq_derived {sessions : List Session}
    (h : Interleaved schema config db sessions) (hsearch : config.search = true) :
    (((db.store.committed.table db.catalog.tables.search).entries.map Prod.fst).Nodup ∧
      ∀ key, key ∈ (db.store.committed.table db.catalog.tables.search).entries.map Prod.fst ↔
        Derived schema (db.store.committed.table db.catalog.tables.objects).entries key) ∧
      Valued schema (db.store.committed.table db.catalog.tables.objects).entries := by
  obtain ⟨hdb, -⟩ := h.inStep hsearch
  obtain ⟨objects, search, hindexed⟩ := hdb.indexed
  rw [Snapshot.table_eq hindexed.objects_eq, Snapshot.table_eq hindexed.search_eq, ← hdb.schema_eq]
  exact ⟨⟨hindexed.lists.postings.keys_nodup, hindexed.lists.mem_iff⟩, hindexed.valued⟩

inductive SessionStep where
  | opened
  | called (index : Nat) (call : WriterCall)
  | rebuilt (field : Id)

def SessionStep.run (state : Database × List Session) : SessionStep → Except Error (Database × List Session)
  | opened => do return (state.1, (← state.1.session true) :: state.2)
  | called index call =>
    match state.2[index]? with
    | none => .ok state
    | some s =>
      let w := (call.run.run ⟨state.1, s⟩).2
      .ok (w.database, state.2.set index w.session)
  | rebuilt field => do return ((← state.1.rebuildSearch field).2, state.2)

def SessionStep.script (schema : Schema) (mapSize : Nat) (steps : List SessionStep) :
    Except Error (Database × List Session) := do
  let db ← Database.create (Store.empty mapSize) schema {} ⟨0, 0⟩
  steps.foldlM SessionStep.run (db, [])

theorem Interleaved.step {state state' : Database × List Session} {step : SessionStep}
    (h : Interleaved schema config state.1 state.2) (hstep : step.run state = .ok state') :
    Interleaved schema config state'.1 state'.2 := by
  cases step with
  | opened =>
    obtain ⟨s, hs, hend⟩ := Stateful.bind_eq_ok.mp hstep
    cases hend
    exact h.opened true hs
  | called index call =>
    cases hs : state.2[index]? with
    | none =>
      simp only [SessionStep.run, hs] at hstep
      cases hstep
      exact h
    | some s =>
      simp only [SessionStep.run, hs] at hstep
      cases hstep
      obtain ⟨hindex, rfl⟩ := List.getElem?_eq_some_iff.mp hs
      have hsplit : state.2 = state.2.take index ++ state.2[index] :: state.2.drop (index + 1) := by
        rw [List.getElem_cons_drop, List.take_append_drop]
      rw [hsplit] at h
      have hcalled := h.called call (Prod.eta (call.run.run ⟨state.1, state.2[index]⟩)).symm
      rw [List.set_eq_take_append_cons_drop, if_pos hindex]
      exact hcalled
  | rebuilt field =>
    obtain ⟨⟨count, db'⟩, hrebuild, hend⟩ := Stateful.bind_eq_ok.mp hstep
    cases hend
    exact h.rebuilt hrebuild

theorem Interleaved.steps {state state' : Database × List Session} {steps : List SessionStep}
    (h : Interleaved schema config state.1 state.2)
    (hsteps : steps.foldlM SessionStep.run state = .ok state') :
    Interleaved schema config state'.1 state'.2 := by
  have hinv : ∀ (before : Database × List Session) (step : SessionStep)
      (after : Database × List Session), Interleaved schema config before.1 before.2 →
        step.run before = .ok after → Interleaved schema config after.1 after.2 :=
    fun _ _ _ hbefore hstep => hbefore.step hstep
  exact Stateful.foldlM_induction (I := fun state => Interleaved schema config state.1 state.2) hinv h
    hsteps

theorem Interleaved.of_script {mapSize : Nat} {steps : List SessionStep}
    {state : Database × List Session} (h : SessionStep.script schema mapSize steps = .ok state) :
    Interleaved schema {} state.1 state.2 := by
  obtain ⟨db, hcreate, hsteps⟩ := Stateful.bind_eq_ok.mp h
  have hcreated : Interleaved schema {} db [] := .created hcreate
  exact hcreated.steps hsteps

def Schema.notes : Schema :=
  (builtin.withType { id := Id.ofNat 0x1000, name := "note" }).withField
    { id := Id.ofNat 0x1001, name := "text", owner := Id.ofNat 0x1000, type := .string, indexed := true }

def SessionStep.notes : List SessionStep :=
  let note := Id.ofNat 0x1000
  let text := Id.ofNat 0x1001
  let a := Id.ofNat 1
  [.opened, .opened, .called 0 (.edit (.create note a)),
    .called 0 (.edit (.setValue a text (Value.string "abab").encode)), .called 0 (.commit ⟨0, 0⟩),
    .called 1 (.edit (.create note a)),
    .called 1 (.edit (.setValue a text (Value.string "bab").encode)), .called 1 (.commit ⟨0, 0⟩),
    .rebuilt text]

theorem SessionStep.script_notes :
    (script Schema.notes 10000 notes).toOption.map (fun state => (state.2.length,
      (state.1.store.committed.table state.1.catalog.tables.search).entries.length)) =
      some (2, 3) := by decide +kernel

theorem Interleaved.search_eq_derived_notes :
    ∃ db sessions, Interleaved Schema.notes {} db sessions ∧ sessions.length = 2 ∧
      (db.store.committed.table db.catalog.tables.search).entries.length = 3 ∧
      (∀ key, key ∈ (db.store.committed.table db.catalog.tables.search).entries.map Prod.fst ↔
        Derived Schema.notes (db.store.committed.table db.catalog.tables.objects).entries key) := by
  obtain ⟨state, hstate, hlengths⟩ := Option.map_eq_some_iff.mp SessionStep.script_notes
  obtain ⟨hsessions, hentries⟩ := Prod.mk.inj hlengths
  cases hrun : SessionStep.script Schema.notes 10000 SessionStep.notes with
  | error e =>
    rw [hrun] at hstate
    cases hstate
  | ok state' =>
    rw [hrun] at hstate
    cases hstate
    have hinterleaved := Interleaved.of_script hrun
    exact ⟨_, _, hinterleaved, hsessions, hentries, (hinterleaved.search_eq_derived rfl).1.2⟩

end ObjectGraph

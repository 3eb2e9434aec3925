import ObjectGraph.Database.Opening
import ObjectGraph.Proofs.Session.Editing
import ObjectGraph.Proofs.Session.Publish

namespace ObjectGraph

open Stateful

theorem Editing.requireWritable_run (s : Session) :
    requireWritable.run s = (if s.writable then .ok ⟨⟩ else .error .readOnly, s) := by
  simp only [requireWritable, run_bind, run_get]
  split <;> rfl

namespace Working

variable {α : Type} {w w' : Work} {stamp : Stamp}

theorem edit_run (m : Editing α) (w : Work) :
    (edit m).run w = ((m.run w.session).1, { w with session := (m.run w.session).2 }) := rfl

inductive Commits (stamp : Stamp) (w : Work) : Except Error (Option CommitId) → Work → Prop where
  | readOnly : w.session.writable = false → Commits stamp w (.error .readOnly) w
  | clean : ¬ w.session.workspace.IsDirty → Commits stamp w (.ok none) w
  | failed {c : CommitId} {sequence : CommitSequence} {e : Error} {x : WriteTxn}
      {recorders : Recorders} :
      w.database.sequence.next stamp = (c, sequence) →
      (w.session.publish c).run (w.database.store.beginWrite, w.session.recorders) =
        (.error e, x, recorders) →
      Commits stamp w (.error e)
        ⟨{ w.database with sequence }, { w.session with recorders }⟩
  | published {c : CommitId} {sequence : CommitSequence} {x : WriteTxn} {recorders : Recorders} :
      w.database.sequence.next stamp = (c, sequence) →
      w.session.writable = true → w.session.workspace.IsDirty →
      (w.session.publish c).run (w.database.store.beginWrite, w.session.recorders) =
        (.ok ⟨⟩, x, recorders) →
      Commits stamp w (.ok (some c))
        ⟨{ w.database with sequence, store := w.database.store.publish x },
          { w.session with recorders }.rebase x.working⟩

theorem catalog_of_commits {result : Except Error (Option CommitId)} (h : Commits stamp w result w') :
    w'.database.catalog = w.database.catalog := by
  cases h <;> rfl

theorem commits_of_run {result : Except Error (Option CommitId)}
    (h : (commit stamp).run w = (result, w')) : Commits stamp w result w' := by
  have hcheck := edit_run Editing.requireWritable w
  rw [Editing.requireWritable_run] at hcheck
  cases hwritable : w.session.writable with
  | false =>
    rw [hwritable] at hcheck
    rw [commit, run_bind_of_error hcheck] at h
    cases h
    exact .readOnly hwritable
  | true =>
    rw [hwritable] at hcheck
    rw [commit, run_bind_of_ok hcheck, run_bind_of_ok (run_get _)] at h
    by_cases hdirty : w.session.workspace.IsDirty
    · simp only [if_pos hdirty] at h
      rcases hnext : w.database.sequence.next stamp with ⟨c, sequence⟩
      rcases hrun : (w.session.publish c).run
        (w.database.store.beginWrite, w.session.recorders) with ⟨e | _, x, recorders⟩
      · simp only [hnext, hrun] at h
        cases h
        exact .failed hnext hrun
      · simp only [hnext, hrun] at h
        cases h
        exact .published hnext hwritable hdirty hrun
    · simp only [if_neg hdirty] at h
      cases h
      exact .clean hdirty

end Working

inductive WriterCall where
  | edit (edit : Edit)
  | commit (stamp : Stamp)

def WriterCall.run : WriterCall → Working Unit
  | edit e => Working.edit e.perform
  | commit stamp => discard (Working.commit stamp)

theorem Working.of_edit_run {edit : Edit} {w w' : Work} {result : Except Error Unit}
    (h : (WriterCall.edit edit).run.run w = (result, w')) :
    ∃ s, edit.perform.run w.session = (result, s) ∧ w' = { w with session := s } := by
  rw [WriterCall.run, edit_run] at h
  cases h
  exact ⟨_, rfl, rfl⟩

theorem Working.of_commit_run {stamp : Stamp} {w w' : Work} {result : Except Error Unit}
    (h : (WriterCall.commit stamp).run.run w = (result, w')) :
    ∃ committed, Commits stamp w committed w' ∧ result = committed.map fun _ => ⟨⟩ := by
  have hmap : (discard (commit stamp)).run w =
    (((commit stamp).run w).1.map fun _ => ⟨⟩, ((commit stamp).run w).2) := run_map _ _ _
  rw [WriterCall.run, hmap] at h
  cases h
  exact ⟨_, commits_of_run rfl, rfl⟩

namespace Database

def fresh (mapSize : Nat) (schema : Schema) (config : Config) : Database where
  catalog := ⟨⟨0, 1, 2, 3⟩, schema, config⟩
  store := ⟨mapSize, ⟨[⟨"objects", KeyOrder.lexicographic, []⟩, ⟨"history", KeyOrder.lexicographic, []⟩,
    ⟨"history_by_object", KeyOrder.lexicographic, []⟩, ⟨"search", KeyOrder.search, []⟩], 0⟩⟩
  sequence := {}

variable {mapSize : Nat} {schema : Schema} {config : Config} {stamp : Stamp} {db db' : Database}

theorem fresh_distinct : (fresh mapSize schema config).catalog.tables.Distinct where
  objects_ne_history := nofun
  objects_ne_historyByObject := nofun
  objects_ne_search := nofun
  search_ne_history := nofun
  search_ne_historyByObject := nofun
  history_ne_historyByObject := nofun

theorem transaction_eq_ok {α : Type} {body : Working α} {a : α}
    (h : db.transaction stamp body = (.ok a, db')) :
    ∃ s w c w', db.session true = .ok s ∧ body.run ⟨db, s⟩ = (.ok a, w) ∧
      (Working.commit stamp).run w = (.ok c, w') ∧ db' = w'.database := by
  rw [transaction] at h
  cases hs : db.session true with
  | error e =>
    rw [hs] at h
    cases h
  | ok s =>
    let work : Working α := do
      let a ← body
      discard <| Working.commit stamp
      return a
    rcases hrun : work.run ⟨db, s⟩ with ⟨result, w'⟩
    have hresult : (result, w'.database) = (.ok a, db') := by
      rw [← h, hs]
      simp only [work] at hrun
      simp only [hrun]
    cases hresult
    obtain ⟨_, w, hbody, hrest⟩ := run_bind_eq_ok.mp hrun
    obtain ⟨_, w'', hcommit, hend⟩ := run_bind_eq_ok.mp hrest
    obtain ⟨c, hcommit⟩ := run_discard_eq_ok.mp hcommit
    cases hend
    exact ⟨s, w, c, w', rfl, hbody, hcommit, rfl⟩

theorem create_eq_ok (h : create (Store.empty mapSize) schema config stamp = .ok db) :
    ∃ s w c w', (fresh mapSize schema config).session true = .ok s ∧
      (Working.edit schema.store).run ⟨fresh mapSize schema config, s⟩ = (.ok ⟨⟩, w) ∧
      (Working.commit stamp).run w = (.ok c, w') ∧ db = w'.database := by
  let created := (fresh mapSize schema config).transaction stamp (Working.edit schema.store)
  have hcreate : create (Store.empty mapSize) schema config stamp =
      (schema.validate >>= fun _ => created.1 >>= fun _ => .ok created.2) := rfl
  rw [hcreate] at h
  obtain ⟨_, -, h⟩ := bind_eq_ok.mp h
  obtain ⟨⟨⟩, hok, h⟩ := bind_eq_ok.mp h
  cases h
  exact transaction_eq_ok (Prod.ext hok rfl)

theorem resume_eq_ok (h : db.resume = .ok db') : db' = { db with sequence := db'.sequence } := by
  obtain ⟨c, -, h⟩ := bind_eq_ok.mp h
  cases c <;> cases h <;> rfl

def tableNames : List String := ["objects", "history", "history_by_object", "search"]

theorem openTables_eq {store : Store} (hnames : store.committed.tables.map Table.name = tableNames) :
    store.openTables = .ok (⟨0, 1, 2, 3⟩, store) := by
  obtain ⟨mapSize, tables, size⟩ := store
  simp only [tableNames, List.map_eq_cons_iff, List.map_eq_nil_iff] at hnames
  obtain ⟨objects, _, rfl, hobjects, history, _, rfl, hhistory, byObject, _, rfl, hbyObject, search, _, rfl,
    hsearch, rfl⟩ := hnames
  simp [Store.openTables, Store.openTable, hobjects, hhistory, hbyObject, hsearch, List.findIdx?_cons, bind,
    Except.bind, pure, Except.pure]

theorem ofStore_eq_ok {store opened : Store} {tables : Tables} (hopen : store.openTables = .ok (tables, opened))
    (h : ofStore store config = .ok db) :
    ∃ schema, resume ⟨⟨tables, schema, config⟩, opened, {}⟩ = .ok db := by
  rw [ofStore, hopen, ok_bind] at h
  obtain ⟨s, -, h⟩ := bind_eq_ok.mp h
  obtain ⟨schema, -, h⟩ := bind_eq_ok.mp h
  exact ⟨schema, h⟩

end Database

namespace Database

variable {db db' : Database} {field : Id} {n : Nat} {e : Error} {x : WriteTxn}

theorem rebuild_of_ok (h : (Rebuild.run db.catalog field).run db.store.beginWrite = (.ok n, x)) :
    (rebuild field).run db = (.ok n, { db with store := db.store.publish x }) := by
  rw [ExceptT.run, rebuild, h]

theorem rebuild_of_error (h : (Rebuild.run db.catalog field).run db.store.beginWrite = (.error e, x)) :
    (rebuild field).run db = (.error e, db) := by
  rw [ExceptT.run, rebuild, h]

theorem rebuild_cases (db : Database) (field : Id) :
    (∃ n x, (Rebuild.run db.catalog field).run db.store.beginWrite = (.ok n, x) ∧
      (rebuild field).run db = (.ok n, { db with store := db.store.publish x })) ∨
    ∃ e, (rebuild field).run db = (.error e, db) := by
  rcases hrun : (Rebuild.run db.catalog field).run db.store.beginWrite with ⟨e | n, x⟩
  · exact .inr ⟨e, rebuild_of_error hrun⟩
  · exact .inl ⟨n, x, rfl, rebuild_of_ok hrun⟩

theorem rebuildSearch_eq (db : Database) (field : Id) :
    db.rebuildSearch field = ((rebuild field).run db).1.map (·, ((rebuild field).run db).2) := rfl

theorem exists_of_rebuildSearch (h : db.rebuildSearch field = .ok (n, db')) :
    ∃ x, (Rebuild.run db.catalog field).run db.store.beginWrite = (.ok n, x) ∧
      db' = { db with store := db.store.publish x } := by
  rw [rebuildSearch_eq] at h
  rcases rebuild_cases db field with ⟨count, x, hrun, hrebuild⟩ | ⟨e, hrebuild⟩
  · rw [hrebuild] at h
    cases h
    exact ⟨x, hrun, rfl⟩
  · rw [hrebuild] at h
    contradiction

end Database

end ObjectGraph

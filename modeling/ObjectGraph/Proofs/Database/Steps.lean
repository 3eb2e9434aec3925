import ObjectGraph.Proofs.Database.Commit
import ObjectGraph.Proofs.History.CommitId
import ObjectGraph.Proofs.Session.Restart

namespace ObjectGraph

open Stateful (Both Lockstep)

structure System where
  database : Database
  sessions : List Session

inductive Step where
  | opened (writable : Bool)
  | named (index : Nat) (actor : Id)
  | called (index : Nat) (call : WriterCall)
  | closed (index : Nat)
  | rebuilt (field : Id)

def Step.perform : Step → StateM System (Except Error Unit)
  | opened writable, s =>
    match s.database.session writable with
    | .error e => (.error e, s)
    | .ok session => (.ok ⟨⟩, { s with sessions := session :: s.sessions })
  | named index actor, s => (.ok ⟨⟩, { s with sessions := s.sessions.modify index (·.withActor actor) })
  | called index call, s =>
    match s.sessions[index]? with
    | none => (.ok ⟨⟩, s)
    | some session =>
      let (result, w) := call.run.run ⟨s.database, session⟩
      (result, ⟨w.database, s.sessions.set index w.session⟩)
  | closed index, s => (.ok ⟨⟩, { s with sessions := s.sessions.eraseIdx index })
  | rebuilt field, s =>
    let (result, database) := (Database.rebuild field).run s.database
    (result.map fun _ => ⟨⟩, { s with database })

namespace System

def run (s : System) (steps : List Step) : List (Except Error Unit) × System :=
  (steps.mapM Step.perform).run s

theorem run_cons (s : System) (step : Step) (steps : List Step) :
    s.run (step :: steps) =
      ((step.perform s).1 :: ((step.perform s).2.run steps).1, ((step.perform s).2.run steps).2) :=
  Stateful.run_mapM_cons _ _ _ _

def Unspent (s : System) (steps : List Step) : Prop :=
  ∀ past, past <+: steps → (s.run past).2.database.sequence.latest ≠ CommitId.greatest

end System

structure Bisimilar (D : Database → Database → Prop) (S : Session → Session → Prop)
    (live : Database → Prop) : Prop where
  opened : ∀ {db db'} writable, D db db' → Both S (db.session writable) (db'.session writable)
  named : ∀ {s s' : Session} actor, S s s' → S (s.withActor actor) (s'.withActor actor)
  called : ∀ {w w' : Work} (call : WriterCall), live w.database → live w'.database →
    D w.database w'.database → S w.session w'.session →
    (call.run.run w').1 = (call.run.run w).1 ∧
      D (call.run.run w).2.database (call.run.run w').2.database ∧
      S (call.run.run w).2.session (call.run.run w').2.session
  rebuilt : ∀ field, Lockstep D (Database.rebuild field) (Database.rebuild field) D D

structure System.Related (D : Database → Database → Prop) (S : Session → Session → Prop)
    (s s' : System) : Prop where
  database : D s.database s'.database
  sessions : List.Forall₂ S s.sessions s'.sessions

namespace Bisimilar

variable {D : Database → Database → Prop} {S : Session → Session → Prop} {live : Database → Prop}
  {s s' : System}

theorem perform (h : Bisimilar D S live) (hs : s.Related D S s') (hlive : live s.database)
    (hlive' : live s'.database) (step : Step) :
    (step.perform s').1 = (step.perform s).1 ∧ (step.perform s).2.Related D S (step.perform s').2 := by
  have hdb := hs.database
  have hsessions := hs.sessions
  obtain ⟨db, sessions⟩ := s
  obtain ⟨db', sessions'⟩ := s'
  cases step with
  | opened writable =>
    have hboth := h.opened writable hdb
    simp only [Step.perform]
    generalize db.session writable = x, db'.session writable = y at hboth
    cases hboth with
    | ok hsession => exact ⟨rfl, hdb, .cons hsession hsessions⟩
    | error e => exact ⟨rfl, hdb, hsessions⟩
  | named index actor => exact ⟨rfl, hdb, forall₂_modify hsessions index fun _ _ => h.named actor⟩
  | called index call =>
    have hsession := forall₂_getElem? hsessions index
    simp only [Step.perform]
    generalize sessions[index]? = x, sessions'[index]? = y at hsession
    cases hsession with
    | none => exact ⟨rfl, hdb, hsessions⟩
    | @some s s' hss =>
      obtain ⟨hanswer, hdb', hss'⟩ := @h.called ⟨db, s⟩ ⟨db', s'⟩ call hlive hlive' hdb hss
      exact ⟨hanswer, hdb', forall₂_set hsessions index hss'⟩
  | closed index => exact ⟨rfl, hdb, forall₂_eraseIdx hsessions index⟩
  | rebuilt field =>
    simp only [Step.perform]
    rcases (h.rebuilt field).cases_run hdb with
      ⟨n, d, d', hrebuild, hrebuild', hd⟩ | ⟨e, d, d', hrebuild, hrebuild', hd⟩
    · rw [hrebuild, hrebuild']
      exact ⟨rfl, hd, hsessions⟩
    · rw [hrebuild, hrebuild']
      exact ⟨rfl, hd, hsessions⟩

theorem run (h : Bisimilar D S live) (hs : s.Related D S s') (steps : List Step)
    (hlive : ∀ past, past <+: steps → live (s.run past).2.database)
    (hlive' : ∀ past, past <+: steps → live (s'.run past).2.database) :
    (s'.run steps).1 = (s.run steps).1 ∧ (s.run steps).2.Related D S (s'.run steps).2 := by
  induction steps generalizing s s' with
  | nil => exact ⟨rfl, hs⟩
  | cons step steps ih =>
    obtain ⟨hanswer, hstep⟩ := h.perform hs (hlive [] List.nil_prefix) (hlive' [] List.nil_prefix) step
    have hlater {s : System} (hlive : ∀ past, past <+: step :: steps → live (s.run past).2.database) :
        ∀ past, past <+: steps → live ((step.perform s).2.run past).2.database := by
      intro past hpast
      have hpast := hlive (step :: past) (List.cons_prefix_cons.mpr ⟨rfl, hpast⟩)
      rwa [System.run_cons] at hpast
    obtain ⟨hanswers, hend⟩ := ih hstep (hlater hlive) (hlater hlive')
    rw [System.run_cons, System.run_cons, hanswer, hanswers]
    exact ⟨rfl, hend⟩

end Bisimilar

namespace Working

def settle (w : Work) (c : CommitId) (sequence : CommitSequence) :
    Except Error Unit × WriteTxn × Recorders → Except Error (Option CommitId) × Work
  | (.error e, _, recorders) =>
    (.error e, ⟨{ w.database with sequence }, { w.session with recorders }⟩)
  | (.ok _, x, recorders) =>
    (.ok (some c), ⟨{ w.database with sequence, store := w.database.store.publish x },
      { w.session with recorders }.rebase x.working⟩)

theorem commit_run {stamp : Stamp} {w : Work} {c : CommitId} {sequence : CommitSequence}
    (hnext : w.database.sequence.next stamp = (c, sequence)) : (commit stamp).run w =
      if w.session.writable then
        if w.session.workspace.IsDirty then
          settle w c sequence
            ((w.session.publish c).run (w.database.store.beginWrite, w.session.recorders))
        else (.ok none, w)
      else (.error .readOnly, w) := by
  have hcheck := edit_run Editing.requireWritable w
  rw [Editing.requireWritable_run] at hcheck
  cases hwritable : w.session.writable with
  | false =>
    rw [hwritable] at hcheck
    rw [commit, Stateful.run_bind_of_error hcheck]
    rfl
  | true =>
    rw [hwritable] at hcheck
    rw [commit, Stateful.run_bind_of_ok hcheck, Stateful.run_bind_of_ok (Stateful.run_get _), if_pos rfl]
    by_cases hdirty : w.session.workspace.IsDirty
    · simp only [if_pos hdirty, hnext]
      rcases (w.session.publish c).run
        (w.database.store.beginWrite, w.session.recorders) with ⟨e | _, x, recorders⟩
      · rfl
      · rfl
    · simp only [if_neg hdirty]
      rfl

variable {D : Database → Database → Prop} {Q : Snapshot → Snapshot → Prop}
  {W : WriteTxn → WriteTxn → Prop} {w w' : Work}

theorem edit_alike (hdb : D w.database w'.database) (hs : w.session.Alike Q w'.session) (edit : Edit) :
    ((WriterCall.edit edit).run.run w').1 = ((WriterCall.edit edit).run.run w).1 ∧
      D ((WriterCall.edit edit).run.run w).2.database ((WriterCall.edit edit).run.run w').2.database ∧
      ((WriterCall.edit edit).run.run w).2.session.Alike Q
        ((WriterCall.edit edit).run.run w').2.session := by
  rw [WriterCall.run, edit_run, edit_run]
  rcases (Editing.blind_perform edit Q).cases_run hs with
    ⟨a, s, s', hrun, hrun', halike⟩ | ⟨e, s, s', hrun, hrun', halike⟩
  · rw [hrun, hrun']
    exact ⟨rfl, hdb, halike⟩
  · rw [hrun, hrun']
    exact ⟨rfl, hdb, halike⟩

theorem commit_alike {stamp : Stamp} {c c' : CommitId} {sequence sequence' : CommitSequence}
    (hnext : w.database.sequence.next stamp = (c, sequence))
    (hnext' : w'.database.sequence.next stamp = (c', sequence'))
    (hdb : D w.database w'.database) (hs : w.session.Alike Q w'.session)
    (hbegin : W w.database.store.beginWrite w'.database.store.beginWrite)
    (hpublish : Lockstep (fun xs ys => W xs.1 ys.1 ∧ xs.2.Alike ys.2) (w.session.publish c)
      (w'.session.publish c') (fun xs ys => W xs.1 ys.1 ∧ xs.2.Alike ys.2)
      (fun xs ys => W xs.1 ys.1 ∧ xs.2.Alike ys.2))
    (hfailed : D { w.database with sequence } { w'.database with sequence := sequence' })
    (hpublished : ∀ x x', W x x' →
      D { w.database with sequence, store := w.database.store.publish x }
        { w'.database with sequence := sequence', store := w'.database.store.publish x' } ∧
      Q x.working x'.working ∧
      x'.working.table w.session.catalog.tables.objects = x.working.table w.session.catalog.tables.objects) :
    ((WriterCall.commit stamp).run.run w').1 = ((WriterCall.commit stamp).run.run w).1 ∧
      D ((WriterCall.commit stamp).run.run w).2.database
        ((WriterCall.commit stamp).run.run w').2.database ∧
      ((WriterCall.commit stamp).run.run w).2.session.Alike Q
        ((WriterCall.commit stamp).run.run w').2.session := by
  have hdiscard (w : Work) : (WriterCall.commit stamp).run.run w =
    (((commit stamp).run w).1.map fun _ => ⟨⟩, ((commit stamp).run w).2) := Stateful.run_map _ _ _
  rw [hdiscard, hdiscard, commit_run hnext, commit_run hnext', hs.writable_eq, hs.workspace_eq]
  split
  · split
    · rcases hpublish.cases_run (s := (w.database.store.beginWrite, w.session.recorders))
        (t := (w'.database.store.beginWrite, w'.session.recorders)) ⟨hbegin, hs.recorders⟩ with
        ⟨_, ⟨x, r⟩, ⟨x', r'⟩, hrun, hrun', hx, hr⟩ | ⟨e, ⟨x, r⟩, ⟨x', r'⟩, hrun, hrun', hx, hr⟩
      · rw [hrun, hrun', settle, settle]
        obtain ⟨hdb', hsnapshot, htable⟩ := hpublished x x' hx
        refine ⟨rfl, hdb', hs.catalog_eq, hs.writable_eq, hs.actor_eq, ?_, hsnapshot, hr⟩
        change w'.session.workspace.reset.refresh (x'.working.table w'.session.catalog.tables.objects) =
          w.session.workspace.reset.refresh (x.working.table w.session.catalog.tables.objects)
        rw [hs.workspace_eq, hs.catalog_eq, htable]
      · rw [hrun, hrun', settle, settle]
        exact ⟨rfl, hfailed, hs.catalog_eq, hs.writable_eq, hs.actor_eq, hs.workspace_eq, hs.snapshot, hr⟩
    · exact ⟨rfl, hdb, hs⟩
  · exact ⟨rfl, hdb, hs⟩

end Working

theorem Bisimilar.recorders : Bisimilar Eq (Session.Alike Eq) fun _ => True where
  opened := by
    rintro db _ writable rfl
    exact .refl (fun s => ⟨rfl, rfl, rfl, rfl, rfl, .refl _⟩) _
  named actor hs :=
    ⟨hs.catalog_eq, hs.writable_eq, rfl, hs.workspace_eq, hs.snapshot, hs.recorders⟩
  called := by
    rintro ⟨db, s⟩ ⟨_, s'⟩ call - - rfl hs
    cases call with
    | edit edit => exact @Working.edit_alike Eq Eq ⟨db, s⟩ ⟨db, s'⟩ rfl hs edit
    | commit stamp =>
      rcases hnext : db.sequence.next stamp with ⟨c, sequence⟩
      have hpublish : s'.publish c = s.publish c := by
        have heq : s' = { s with snapshot := s'.snapshot, recorders := s'.recorders } := hs.eq
        rw [heq]
        rfl
      refine @Working.commit_alike Eq Eq (fun x x' => x' = x) ⟨db, s⟩ ⟨db, s'⟩ stamp c c sequence sequence
        hnext hnext rfl hs rfl ?_ rfl ?_
      · change Lockstep _ (s.publish c) (s'.publish c) _ _
        rw [hpublish]
        exact s.publish_congr c
      · rintro x _ rfl
        exact ⟨rfl, rfl, rfl⟩
  rebuilt _ := .refl

end ObjectGraph

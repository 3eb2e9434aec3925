import Mathlib.Data.List.Infix
import ObjectGraph.Proofs.Database.Counterparts
import ObjectGraph.Proofs.Database.SearchIndex
import ObjectGraph.Proofs.Database.SingleWriter

namespace ObjectGraph

open Stateful (Both Lockstep)

structure System.Dated (s : System) : Prop where
  database : s.database.Dated
  sessions : ∀ session ∈ s.sessions, session.catalog = s.database.catalog

def Work.among (w : Work) (before after : List Session) : System :=
  ⟨w.database, before ++ w.session :: after⟩

theorem Session.Alike.refl {R : Snapshot → Snapshot → Prop} (hR : ∀ s, R s s) (s : Session) :
    s.Alike R s := ⟨rfl, rfl, rfl, rfl, hR _, .refl _⟩

theorem forall₂_around {S : Session → Session → Prop} {before after : List Session} {s s' : Session}
    (hs : S s s') (hrest : ∀ t ∈ before ++ s :: after, S t t) :
    List.Forall₂ S (before ++ s :: after) (before ++ s' :: after) := by
  simp only [List.forall_mem_append, List.forall_mem_cons] at hrest
  obtain ⟨hbefore, -, hafter⟩ := hrest
  exact List.rel_append (List.forall₂_same.mpr hbefore) (.cons hs (List.forall₂_same.mpr hafter))

namespace Working

variable {w w' : Work} {stamp : Stamp} {e : Error}

theorem residue_of_failure (h : (commit stamp).run w = (.error e, w')) :
    w'.database = { w.database with sequence := w'.database.sequence } ∧
      w'.session = { w.session with recorders := w'.session.recorders } ∧
      w.session.recorders.Alike w'.session.recorders ∧
      (w'.database.sequence = w.database.sequence ∨
        ∃ c, w.database.sequence.next stamp = (c, w'.database.sequence)) := by
  cases commits_of_run h with
  | readOnly => exact ⟨rfl, rfl, .refl _, .inl rfl⟩
  | @failed c _ _ x recorders hnext hrun =>
    have halike := (w.session.publish_alike c).error (Recorders.Alike.refl _) hrun
    exact ⟨rfl, rfl, halike, .inr ⟨c, hnext⟩⟩

end Working

namespace System

variable {s : System} {steps : List Step}

theorem Dated.run (h : s.Dated) (hunspent : s.Unspent steps) : (s.run steps).2.Dated := by
  obtain ⟨order, habreast⟩ := h.database.abreast h.database.proper (Nat.le_refl _) rfl rfl
  have hrelated : s.Related (Database.Abreast s.database.catalog order s.database.sequence.latest)
      (fun t t' => t.catalog = s.database.catalog ∧ t.Alike (fun _ _ => True) t') s :=
    ⟨habreast, List.forall₂_same.mpr fun t ht => ⟨h.sessions t ht, .refl (fun _ => trivial) t⟩⟩
  obtain ⟨-, hdatabase, hsessions⟩ :=
    (Bisimilar.abreast _ order _).run hrelated steps hunspent hunspent
  refine ⟨hdatabase.dated, fun t ht => ?_⟩
  rw [List.forall₂_same] at hsessions
  rw [hdatabase.catalog_eq]
  exact (hsessions t ht).1

theorem dated_of_fresh (mapSize : Nat) (schema : Schema) (config : Config) :
    (Database.fresh mapSize schema config).Dated := by
  have hempty : ∀ (u : TableId) table,
      (Database.fresh mapSize schema config).store.committed.tables[u]? = some table → table.entries = [] := by
    intro u table htable
    have hmem := List.mem_of_getElem? htable
    simp only [Database.fresh, List.mem_cons, List.not_mem_nil, or_false] at hmem
    rcases hmem with rfl | rfl | rfl | rfl <;> rfl
  refine ⟨.inl rfl, ⟨fun u => ((Database.fresh mapSize schema config).store.committed.table u).order,
    ⟨Database.fresh_distinct, rfl, rfl⟩, fun u table htable =>
      congrArg Table.order (Snapshot.table_eq htable).symm⟩, ?_, ?_⟩
  · intro table htable e he
    rw [hempty _ table htable] at he
    contradiction
  · intro table htable e he
    rw [hempty _ table htable] at he
    contradiction

theorem dated_of_create {mapSize : Nat} {schema : Schema} {config : Config} {stamp : Stamp} {db : Database}
    (h : Database.create (Store.empty mapSize) schema config stamp = .ok db) : (System.mk db []).Dated := by
  obtain ⟨s, w, c, w', hs, hstore, hcommit, rfl⟩ := Database.create_eq_ok h
  rw [Working.edit_run] at hstore
  obtain ⟨hok, rfl⟩ := Prod.mk.inj hstore
  have hcatalog : ((schema.store.run s).2).catalog = (Database.fresh mapSize schema config).catalog := by
    obtain ⟨_, _, _, -, -, rfl⟩ := Session.create_eq_ok hs
    exact ((Schema.keeps_store (Editing.closed_pinned _ _) schema).of_run ⟨rfl, rfl⟩ (Prod.eta _).symm).1
  obtain ⟨order, habreast⟩ := (dated_of_fresh mapSize schema config).abreast (.inl rfl) (Nat.le_refl _)
    rfl rfl
  have hlive : (Database.fresh mapSize schema config).sequence.latest ≠ CommitId.greatest :=
    (by decide : 0 ≠ CommitId.greatest)
  have hcommitted := (Bisimilar.abreast _ order _).called
    (w := ⟨Database.fresh mapSize schema config, (schema.store.run s).2⟩) (.commit stamp) hlive hlive
    habreast ⟨hcatalog, .refl (fun _ => trivial) _⟩
  have hdiscard : (WriterCall.commit stamp).run.run
      ⟨Database.fresh mapSize schema config, (schema.store.run s).2⟩ = _ := Stateful.run_map _ _ _
  rw [hdiscard, hcommit] at hcommitted
  exact ⟨hcommitted.2.1.dated, nofun⟩

/-- A failed commit publishes nothing and leaves what its session shows and has staged. Whatever is done
then, every answer and everything that is committed is as if that commit had not been called: exactly, if
commits get the identifiers that they get, and otherwise but for identifiers and times. -/
theorem undisturbed_by_failure {w w' : Work} {stamp : Stamp} {e : Error}
    (h : (Working.commit stamp).run w = (.error e, w')) (before after : List Session) :
    (w'.database.store = w.database.store ∧ w'.database.catalog = w.database.catalog ∧
      w'.session = { w.session with recorders := w'.session.recorders }) ∧
    (∀ steps,
      let spared := Work.among { w with database.sequence := w'.database.sequence } before after
      ((w'.among before after).run steps).1 = (spared.run steps).1 ∧
        (spared.run steps).2.Related Eq (Session.Alike Eq) ((w'.among before after).run steps).2) ∧
    ((w.among before after).Dated → ∀ steps,
      (w.among before after).Unspent steps → (w'.among before after).Unspent steps →
      ((w'.among before after).run steps).1 = ((w.among before after).run steps).1 ∧
        ∃ P, CommitId.OrderKept P ∧ (∀ c : CommitId, c.toNat ≤ w.database.sequence.latest → P c c) ∧
          ((w.among before after).run steps).2.Related (Database.Counterpart P)
            (Session.Alike fun _ _ => True) ((w'.among before after).run steps).2) := by
  obtain ⟨hdatabase, hsession, halike, hsequence⟩ := Working.residue_of_failure h
  have hsame (R : Snapshot → Snapshot → Prop) (hR : ∀ s, R s s) : w.session.Alike R w'.session := by
    rw [hsession]
    exact ⟨rfl, rfl, rfl, rfl, hR _, halike⟩
  refine ⟨⟨by rw [hdatabase], by rw [hdatabase], hsession⟩, fun steps => ?_, fun hdated steps hspared hfailed => ?_⟩
  · apply Bisimilar.recorders.run _ steps (fun _ _ => trivial) fun _ _ => trivial
    refine ⟨hdatabase.symm, forall₂_around (hsame _ fun _ => rfl) fun t _ => .refl (fun _ => rfl) t⟩
  · have hlive := hspared [] List.nil_prefix
    have hlater : w'.database.sequence.Proper ∧
        w.database.sequence.latest ≤ w'.database.sequence.latest := by
      rcases hsequence with heq | ⟨c, hnext⟩
      · rw [heq]
        exact ⟨hdated.database.proper, Nat.le_refl _⟩
      · obtain ⟨hproper, -, hlt⟩ := CommitSequence.next_spec hdated.database.proper hnext
        exact ⟨hproper, Nat.le_of_lt (hlt hlive)⟩
    obtain ⟨order, habreast⟩ := hdated.database.abreast hlater.1 hlater.2 (by rw [hdatabase]; rfl)
      (by rw [hdatabase]; rfl)
    have hstart : System.Related
        (Database.Abreast w.database.catalog order w.database.sequence.latest)
        (fun s s' => s.catalog = w.database.catalog ∧ s.Alike (fun _ _ => True) s')
        (w.among before after) (w'.among before after) := by
      refine ⟨habreast, forall₂_around ⟨hdated.sessions _ (by simp [Work.among]), ?_⟩ fun t ht => ?_⟩
      · exact hsame _ fun _ => trivial
      · exact ⟨hdated.sessions t ht, .refl (fun _ => trivial) t⟩
    obtain ⟨hanswers, hend, hsessions⟩ :=
      (Bisimilar.abreast _ order _).run hstart steps hspared hfailed
    obtain ⟨P, hP, hfloor, -, hcounterpart⟩ := hend.matching
    exact ⟨hanswers, P, hP, hfloor, hcounterpart, hsessions.imp fun _ _ hs => hs.2⟩

instance (s : System) (steps : List Step) : Decidable (s.Unspent steps) :=
  decidable_of_iff (∀ past ∈ steps.inits, (s.run past).2.database.sequence.latest ≠ CommitId.greatest)
    (by simp only [List.mem_inits, Unspent])

def jam : List Step :=
  [.opened true, .called 0 (.edit (.create (Id.ofNat 0x1000) (Id.ofNat 1))),
    .called 0 (.edit (.setValue (Id.ofNat 1) (Id.ofNat 0x1001) (Value.string "ab").encode))]

def jammed : Except Error System := do
  let db ← Database.create (Store.empty 960) Schema.notes {} ⟨0, 0⟩
  return ((System.mk db []).run jam).2

def retry : List Step :=
  [.called 0 (.edit .rollback), .called 0 (.edit (.create (Id.ofNat 0x1000) (Id.ofNat 2))),
    .called 0 (.commit ⟨7, 0⟩)]

theorem dated_of_jammed {s : System} (h : jammed = .ok s) : s.Dated := by
  obtain ⟨db, hcreate, hend⟩ := Stateful.bind_eq_ok.mp h
  cases hend
  apply (dated_of_create hcreate).run
  have hunspent : ∀ db ∈ (Database.create (Store.empty 960) Schema.notes {} ⟨0, 0⟩).toOption,
      (System.mk db []).Unspent jam := by decide +kernel
  exact hunspent db (by rw [hcreate]; rfl)

def retried (w : Work) : Except Error (Option CommitId) × List (Except Error Unit) :=
  let (result, w') := (Working.commit ⟨7, 0⟩).run w
  (result, ((w'.among [] []).run retry).1)

theorem undisturbed_by_failure_jammed :
    ∃ w w' P, jammed = .ok (w.among [] []) ∧ (w.among [] []).Dated ∧
      (Working.commit ⟨7, 0⟩).run w = (.error (.store (.mapFull 1002 960)), w') ∧
      w'.database.store = w.database.store ∧
      ((w'.among [] []).run retry).1 = [.ok ⟨⟩, .ok ⟨⟩, .ok ⟨⟩] ∧
      ((w.among [] []).run retry).1 = [.ok ⟨⟩, .ok ⟨⟩, .ok ⟨⟩] ∧
      ((w.among [] []).run retry).2.database.Counterpart P ((w'.among [] []).run retry).2.database := by
  have hscript : (jammed.toOption.map fun s => s.sessions.map fun t => retried ⟨s.database, t⟩) =
      some [(.error (.store (.mapFull 1002 960)), [.ok ⟨⟩, .ok ⟨⟩, .ok ⟨⟩])] := by decide +kernel
  have hunspent : ∀ s ∈ jammed.toOption, s.Unspent retry ∧ ∀ t ∈ s.sessions,
      (((Working.commit ⟨7, 0⟩).run ⟨s.database, t⟩).2.among [] []).Unspent retry := by decide +kernel
  obtain ⟨⟨db, sessions⟩, hjammed, hsessions⟩ := Option.map_eq_some_iff.mp hscript
  obtain ⟨s, rfl, hs⟩ := List.map_eq_singleton_iff.mp hsessions
  have hstate : jammed = .ok (Work.among ⟨db, s⟩ [] []) := Stateful.ok_of_toOption hjammed
  have hdated := dated_of_jammed hstate
  obtain ⟨hunspent, hunspent'⟩ := hunspent _ hjammed
  have hunspent' := hunspent' s List.mem_cons_self
  rcases hrun : (Working.commit ⟨7, 0⟩).run ⟨db, s⟩ with ⟨result, w'⟩
  simp only [retried, hrun, Prod.mk.injEq] at hs hunspent'
  obtain ⟨rfl, hanswers⟩ := hs
  obtain ⟨⟨hstore, -, -⟩, -, hcounterpart⟩ := undisturbed_by_failure hrun [] []
  obtain ⟨hsame, P, -, -, hend⟩ := hcounterpart hdated retry hunspent hunspent'
  exact ⟨_, w', P, hstate, hdated, hrun, hstore, hanswers, hsame ▸ hanswers, hend.database⟩

end System

end ObjectGraph

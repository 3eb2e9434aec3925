import ObjectGraph.Proofs.Database.Moves
import ObjectGraph.Proofs.Session.Mirroring
/-!
Sessions that began with different versions may commit over one another's changes: each of them stages the
two halves of an edge alike, so the committed objects have both halves of an edge or neither.
-/

namespace ObjectGraph

open Dictionary (Ascending)

theorem Mirrored.override {base : Table} {overlay : Overlay} (hvalid : base.Valid KeyOrder.lexicographic)
    (hoverlay : overlay.Valid KeyOrder.lexicographic) (hbase : Mirrored base.get?)
    (hstaged : Mirrored overlay.get?) :
    Mirrored (base.withEntries
      (Staged.override KeyOrder.lexicographic base.entries overlay.entries)).get? := by
  intro half
  rw [hvalid.get?_override hoverlay, hvalid.get?_override hoverlay, hbase half, hstaged half]

namespace System

structure Balanced (schema : Schema) (config : Config) (s : System) : Prop where
  orderly : s.Orderly schema config
  objects : Mirrored (s.database.store.committed.table s.database.catalog.tables.objects).get?
  sessions : ∀ t ∈ s.sessions, t.Balanced

variable {schema : Schema} {config : Config} {db : Database} {s s' : System}

theorem balanced_of_session (hdb : db.Orderly schema config)
    (hobjects : Mirrored (db.store.committed.table db.catalog.tables.objects).get?) {writable : Bool}
    {t : Session} (ht : db.session writable = .ok t) : t.Balanced := by
  obtain ⟨table, htable, hvalid, -⟩ := hdb.objects
  rw [Snapshot.table_eq htable] at hobjects
  obtain ⟨capacity, w, recorders, hw, -, rfl⟩ := Session.create_eq_ok ht
  rw [Snapshot.table_eq htable] at hw
  obtain ⟨hworkspace, rfl, hentries⟩ := Workspace.create_spec hvalid hw
  have hempty := hworkspace.overlay.get?_of_entries_eq_nil hentries
  exact ⟨hworkspace, hobjects, fun half => (hempty half.bytes).trans (hempty half.mirror.bytes).symm⟩

theorem balanced_of_commits {stamp : Stamp} {w w' : Work} {result : Except Error (Option CommitId)}
    (hdb : w.database.Orderly schema config)
    (hobjects : Mirrored (w.database.store.committed.table w.database.catalog.tables.objects).get?)
    (hs : w.session.Orderly w.database.catalog) (hbalanced : w.session.Balanced)
    (h : Working.Commits stamp w result w') :
    Mirrored (w'.database.store.committed.table w'.database.catalog.tables.objects).get? ∧
      w'.session.Balanced := by
  cases h with
  | readOnly => exact ⟨hobjects, hbalanced⟩
  | clean => exact ⟨hobjects, hbalanced⟩
  | failed => exact ⟨hobjects, hbalanced.valid, hbalanced.base, hbalanced.staged⟩
  | @published c sequence x recorders _ _ _ hpublish =>
    obtain ⟨table, htable, hvalid, -⟩ := hdb.objects
    rw [Snapshot.table_eq htable] at hobjects
    have hpublished := Session.objects_of_publish hpublish (hs.catalog_eq ▸ hdb.distinct)
      (hs.catalog_eq ▸ htable)
    rw [hvalid.order_eq] at hpublished
    have hmirrored := Mirrored.override hvalid hbalanced.valid.overlay hobjects hbalanced.staged
    have hworkspace : ({ w.session with recorders }.rebase x.working).workspace =
        w.session.workspace.reset.refresh (table.withEntries (Staged.override KeyOrder.lexicographic
          table.entries w.session.workspace.overlay.entries)) := by
      rw [Session.rebase, Snapshot.table_eq hpublished]
    refine ⟨?_, ?_, ?_, ?_⟩
    · change Mirrored (x.working.table w.database.catalog.tables.objects).get?
      rwa [← hs.catalog_eq, Snapshot.table_eq hpublished]
    · rw [hworkspace]
      exact hbalanced.valid.reset.1.refresh (hvalid.override _)
    · rw [hworkspace]
      exact hmirrored
    · rw [hworkspace]
      exact hbalanced.rollback.staged

theorem balanced_of_call {call : WriterCall} {w w' : Work} {result : Except Error Unit}
    (hdb : w.database.Orderly schema config)
    (hobjects : Mirrored (w.database.store.committed.table w.database.catalog.tables.objects).get?)
    (hs : w.session.Orderly w.database.catalog) (hbalanced : w.session.Balanced)
    (hrun : call.run.run w = (result, w')) (hroom : ∀ e, result = .error e → ¬ e.IsExhaustion) :
    Mirrored (w'.database.store.committed.table w'.database.catalog.tables.objects).get? ∧
      w'.session.Balanced := by
  cases call with
  | edit edit =>
    obtain ⟨t, ht, rfl⟩ := Working.of_edit_run hrun
    have hedit := Editing.balances_perform edit _ hbalanced
    rw [ht] at hedit
    refine ⟨hobjects, ?_⟩
    cases result with
    | ok _ => exact hedit
    | error e => exact hedit.resolve_left (hroom e rfl)
  | commit stamp =>
    obtain ⟨committed, hcommits, -⟩ := Working.of_commit_run hrun
    exact balanced_of_commits hdb hobjects hs hbalanced hcommits

theorem balanced_of_create {mapSize : Nat} {stamp : Stamp}
    (h : Database.create (Store.empty mapSize) schema config stamp = .ok db) :
    (System.mk db []).Balanced schema config := by
  have hdb := Database.orderly_of_create h
  obtain ⟨t, w, c, w', ht, hstore, hcommit, rfl⟩ := Database.create_eq_ok h
  have hfresh : (Database.fresh mapSize schema config).Orderly schema config := Database.fresh_orderly
  have hempty : Mirrored ((Database.fresh mapSize schema config).store.committed.table
      (Database.fresh mapSize schema config).catalog.tables.objects).get? := fun _ => rfl
  rw [Working.edit_run] at hstore
  obtain ⟨hok, rfl⟩ := Prod.mk.inj hstore
  have hrun : schema.store.run t = (.ok ⟨⟩, (schema.store.run t).2) := Prod.ext hok rfl
  have horderly := (Schema.keeps_store Session.closed_orderly schema).ok (hfresh.session ht) hrun
  have hbalanced := (Schema.composable_balances.store schema).ok (balanced_of_session hfresh hempty ht) hrun
  obtain ⟨hobjects, -⟩ := balanced_of_commits hfresh hempty horderly hbalanced
    (Working.commits_of_run hcommit)
  exact ⟨⟨hdb, nofun⟩, hobjects, nofun⟩

theorem Balanced.moves {result : Except Error Unit} (h : s.Balanced schema config)
    (hmove : s.Moves result s') (hroom : ∀ e, result = .error e → ¬ e.IsExhaustion) :
    s'.Balanced schema config := by
  obtain ⟨horderly, -⟩ := h.orderly.moves hmove
  cases hmove with
  | apart hsessions =>
    refine ⟨horderly, h.objects, fun t ht => ?_⟩
    rcases hsessions t ht with hold | ⟨writable, hopened⟩ | ⟨u, hu, actor, rfl⟩
    · exact h.sessions t hold
    · exact balanced_of_session h.orderly.database h.objects hopened
    · obtain ⟨hvalid, hbase, hstaged⟩ := h.sessions u hu
      exact ⟨hvalid, hbase, hstaged⟩
  | called hsession hrun hsessions =>
    obtain ⟨hobjects, hbalanced⟩ := balanced_of_call h.orderly.database h.objects
      (h.orderly.sessions _ hsession) (h.sessions _ hsession) hrun hroom
    refine ⟨horderly, hobjects, fun t ht => ?_⟩
    rcases hsessions t ht with hold | rfl
    · exact h.sessions t hold
    · exact hbalanced
  | @rebuilt field count db hrebuild =>
    obtain ⟨table, htable, -, -⟩ := h.orderly.database.objects
    obtain ⟨x, hrun, rfl⟩ := Database.exists_of_rebuildSearch hrebuild
    have hobjects := (Rebuild.frame_of_run hrun).getElem?_eq _ h.orderly.database.distinct.objects_ne_search
    refine ⟨horderly, ?_, h.sessions⟩
    have hsame := Snapshot.table_eq (hobjects.trans htable)
    change Mirrored (x.working.table s.database.catalog.tables.objects).get?
    rw [hsame, ← Snapshot.table_eq htable]
    exact h.objects

/-- After every step of any sessions on one database, one half of an edge is committed just if the other
is, as long as no call runs out of room. -/
theorem halves_committed_together {mapSize : Nat} {stamp : Stamp}
    (hcreate : Database.create (Store.empty mapSize) schema config stamp = .ok db) {steps : List Step}
    (hroom : ∀ e, .error e ∈ ((System.mk db []).run steps).1 → ¬ e.IsExhaustion) :
    ∀ past, past <+: steps → ∀ half : Half,
      let db' := ((System.mk db []).run past).2.database
      let objects := db'.store.committed.table db'.catalog.tables.objects
      (objects.get? half.bytes).isSome ↔ (objects.get? half.mirror.bytes).isSome := by
  intro past hpast half db' objects
  have hbalanced : ((System.mk db []).run past).2.Balanced schema config :=
    run_invariant (fun _ _ _ hs hmove hanswer => hs.moves hmove hanswer) (balanced_of_create hcreate) hroom
      past hpast
  have hsame : objects.get? half.bytes = objects.get? half.mirror.bytes := hbalanced.objects half
  rw [hsame]

def peering (a b : Nat) : Half := ⟨Id.ofNat a, Id.ofNat 0x1001, Id.ofNat b, Id.ofNat 0x1001⟩

def rivals : List Step :=
  let node (n : Nat) : Step := .called 0 (.edit (.create (Id.ofNat 0x1000) (Id.ofNat n)))
  [.opened true, node 1, node 2, node 3, .called 0 (.edit (.link (peering 1 2))), .called 0 (.commit ⟨0, 0⟩),
    .opened true, .called 1 (.edit (.unlink (peering 1 2))), .called 1 (.edit (.link (peering 2 3))),
    .called 1 (.commit ⟨0, 0⟩), .called 0 (.edit (.link (peering 1 3))), .called 0 (.commit ⟨0, 0⟩)]

theorem halves_committed_together_peers :
    ∃ db, Database.create (Store.empty 10000) Schema.peers {} ⟨0, 0⟩ = .ok db ∧
      (∀ e, .error e ∈ ((System.mk db []).run rivals).1 → ¬ e.IsExhaustion) ∧
      let db' := ((System.mk db []).run rivals).2.database
      let objects := db'.store.committed.table db'.catalog.tables.objects
      (objects.get? (peering 1 2).bytes).isSome = false ∧ (objects.get? (peering 2 3).bytes).isSome ∧
        (objects.get? (peering 1 3).bytes).isSome ∧ (objects.get? (peering 1 3).mirror.bytes).isSome := by
  have hscript : ((Database.create (Store.empty 10000) Schema.peers {} ⟨0, 0⟩).toOption.map fun db =>
      let s := ((System.mk db []).run rivals).2
      let objects := s.database.store.committed.table s.database.catalog.tables.objects
      (((System.mk db []).run rivals).1, [peering 1 2, peering 2 3, peering 1 3].map fun half =>
        (objects.get? half.bytes).isSome)) =
      some (List.replicate 12 (.ok ⟨⟩), [false, true, true]) := by decide +kernel
  obtain ⟨db, hdb, hend⟩ := Option.map_eq_some_iff.mp hscript
  obtain ⟨hanswers, hhalves⟩ := Prod.mk.inj hend
  simp only [List.map_cons, List.map_nil, List.cons.injEq, and_true] at hhalves
  obtain ⟨hparted, hjoined, hreplaced⟩ := hhalves
  have hcreate := Stateful.ok_of_toOption hdb
  have hroom : ∀ e, .error e ∈ ((System.mk db []).run rivals).1 → ¬ e.IsExhaustion := by
    intro e he
    rw [hanswers, List.mem_replicate] at he
    cases he.2
  have hmirrored := halves_committed_together hcreate hroom rivals List.prefix_rfl (peering 1 3)
  exact ⟨db, hcreate, hroom, hparted, hjoined, hreplaced, hmirrored.mp hreplaced⟩

end System

end ObjectGraph

import ObjectGraph.Proofs.Database.Admission
import ObjectGraph.Proofs.Session.Failures

namespace ObjectGraph

open Editing (Leaves)
open Stateful (Triple)

namespace Edit

def Concerns : Edit → Key → Prop
  | delete object => Integrity.Touches object
  | link e => Editing.OfEnds e
  | unlink e => Editing.OfEdge e
  | unlinkAll object field => Editing.OfField object field
  | _ => fun _ => False

def IsComposite : Edit → Prop
  | delete _ | link _ | unlink _ | unlinkAll .. => True
  | _ => False

variable {s s' : Session} {e : Error}

theorem perform_leaves (hs : s.workspace.Valid KeyOrder.lexicographic) (edit : Edit) :
    Triple (· = s) edit.perform (fun _ _ => True)
      (fun e t => t = s ∨ edit.IsComposite ∧ Editing.Exhausts edit.Concerns s e t) := by
  have simple {α : Type} {m : Editing α}
      (h : Triple (· = s) m (fun _ _ => True) (fun _ t => t = s)) :
      Triple (· = s) m (fun _ _ => True)
        (fun e t => t = s ∨ edit.IsComposite ∧ Editing.Exhausts edit.Concerns s e t) :=
    h.mono (fun _ ht => ht) (fun _ _ _ => trivial) fun _ _ ht => .inl ht
  have composite {α : Type} {m : Editing α} (hedit : edit.IsComposite)
      (h : Triple (· = s) m (fun _ _ => True) (Leaves edit.Concerns s)) :
      Triple (· = s) (discard m) (fun _ _ => True)
        (fun e t => t = s ∨ edit.IsComposite ∧ Editing.Exhausts edit.Concerns s e t) :=
    h.discard.mono (fun _ ht => ht) (fun _ _ _ => trivial) fun _ _ ht => ht.imp id fun ht => ⟨hedit, ht⟩
  cases edit with
  | create type object => exact simple (Editing.create_leaves type object)
  | createRandom type bits =>
    apply simple
    have hcreate := (Editing.create_leaves (s := s) type bits.ofRandom).bind_pure (b := bits.ofRandom)
    exact hcreate.discard.mono (fun _ ht => ht) (fun _ _ _ => trivial) fun _ _ ht => ht
  | delete object => exact composite trivial (Editing.delete_leaves hs object)
  | setValue object field raw => exact simple (Editing.setValue_leaves object field raw)
  | link h =>
    exact (Editing.link_leaves hs h).mono (fun _ ht => ht) (fun _ _ _ => trivial)
      fun _ _ ht => ht.imp id fun ht => ⟨trivial, ht⟩
  | unlink h => exact composite trivial (Editing.unlink_leaves hs h)
  | unlinkAll object field => exact composite trivial (Editing.unlinkAll_leaves hs object field)
  | rollback => exact fun _ _ => trivial

/-- What is visible and what is pending stays as it was, or else the room ran out within an edit of
several writes. What that left behind is confined to the records which the edit is about, and is gone
after a rollback. -/
theorem unchanged_of_failure {edit : Edit} (hs : s.workspace.Valid KeyOrder.lexicographic)
    (h : edit.perform.run s = (.error e, s')) :
    s' = s ∨ edit.IsComposite ∧ e.IsExhaustion ∧ s'.rollback = s.rollback ∧
      ∀ k, ¬ edit.Concerns k → s'.get? k = s.get? k := by
  rcases (perform_leaves hs edit).error rfl h with hsame | ⟨hedit, hroom, hconfined⟩
  · exact .inl hsame
  · exact .inr ⟨hedit, hroom, hconfined.rollback_eq, hconfined.get?_eq⟩

end Edit

def Config.narrow : Config := { arenaCapacity := 400, pageSize := 64, history := false, search := false }

def Session.crowded : Except Error (Database × List Session) := do
  let node := Id.ofNat 0x1000
  let steps : List SessionStep := [.opened, .called 0 (.edit (.create node (Id.ofNat 1))),
    .called 0 (.edit (.create node (Id.ofNat 2))), .called 0 (.commit ⟨0, 0⟩)]
  let created := (List.range 10).map fun n => SessionStep.called 0 (.edit (.create node (Id.ofNat (n + 3))))
  let db ← Database.create (Store.empty 10000) Schema.peers Config.narrow ⟨0, 0⟩
  (steps ++ created).foldlM SessionStep.run (db, [])

def Half.peers : Half := ⟨Id.ofNat 1, Id.ofNat 0x1001, Id.ofNat 2, Id.ofNat 0x1001⟩

def Edit.failure? (edit : Edit) (s : Session) : Option Error :=
  match (edit.perform.run s).1 with
  | .error e => some e
  | .ok _ => none

theorem Edit.error_of_failure? {edit : Edit} {s : Session} {e : Error} (h : edit.failure? s = some e) :
    (edit.perform.run s).1 = .error e := by
  rw [failure?] at h
  split at h
  next e' he =>
    cases h
    exact he
  · contradiction

theorem Session.exists_crowded :
    ∃ db s s', crowded = .ok (db, [s]) ∧
      (Edit.link Half.peers).perform.run s = (.error (.arenaExhausted 65 395 400), s') ∧
      (s.pending, s.contains (.association Half.peers)) = (10, false) ∧
      (s'.pending, s'.contains (.association Half.peers),
        s'.contains (.association Half.peers.mirror)) = (11, true, false) := by
  have hcrowded : (crowded.toOption.map fun state => state.2.map fun s =>
      ((s.pending, s.contains (.association Half.peers)),
        (Edit.link Half.peers).failure? s,
        ((Edit.link Half.peers).perform.run s).2.pending,
        ((Edit.link Half.peers).perform.run s).2.contains (.association Half.peers),
        ((Edit.link Half.peers).perform.run s).2.contains (.association Half.peers.mirror))) =
      some [((10, false), some (.arenaExhausted 65 395 400), 11, true, false)] := by decide +kernel
  obtain ⟨⟨db, sessions⟩, hstate, hsessions⟩ := Option.map_eq_some_iff.mp hcrowded
  obtain ⟨s, rfl, hs⟩ := List.map_eq_singleton_iff.mp hsessions
  simp only [Prod.mk.injEq] at hs
  obtain ⟨⟨hpending, hbefore⟩, herror, hpending', hnear, hfar⟩ := hs
  exact ⟨db, s, _, Stateful.ok_of_toOption hstate, Prod.ext (Edit.error_of_failure? herror) rfl,
    by rw [hpending, hbefore], by rw [hpending', hnear, hfar]⟩

theorem Interleaved.of_crowded {db : Database} {sessions : List Session}
    (h : Session.crowded = .ok (db, sessions)) :
    Interleaved Schema.peers Config.narrow db sessions := by
  obtain ⟨db₀, hcreate, hsteps⟩ := Stateful.bind_eq_ok.mp h
  have hcreated : Interleaved Schema.peers Config.narrow db₀ [] := .created hcreate
  exact hcreated.steps hsteps

/-- An edge between two nodes may be left with one of its halves. -/
theorem Edit.changed_by_failure :
    ∃ db s s', Session.crowded = .ok (db, [s]) ∧ Interleaved Schema.peers Config.narrow db [s] ∧
      (Edit.link Half.peers).perform.run s = (.error (.arenaExhausted 65 395 400), s') ∧
      s'.pending ≠ s.pending ∧ s.contains (.association Half.peers) = false ∧
      s'.contains (.association Half.peers) = true ∧
      s'.contains (.association Half.peers.mirror) = false := by
  obtain ⟨db, s, s', hcrowded, hrun, hbefore, hafter⟩ := Session.exists_crowded
  simp only [Prod.mk.injEq] at hbefore hafter
  refine ⟨db, s, s', hcrowded, .of_crowded hcrowded, hrun, ?_, hbefore.2, hafter.2⟩
  rw [hbefore.1, hafter.1]
  decide

theorem Edit.unchanged_of_failure_crowded :
    ∃ s s', (Edit.link Half.peers).perform.run s = (.error (.arenaExhausted 65 395 400), s') ∧
      s'.rollback = s.rollback ∧
      ∀ k, ¬ (Edit.link Half.peers).Concerns k → s'.get? k = s.get? k := by
  obtain ⟨db, s, s', hcrowded, hrun, hbefore, hafter⟩ := Session.exists_crowded
  have hvalid := ((Interleaved.of_crowded hcrowded).orderly.2 s List.mem_cons_self).valid
  refine ⟨s, s', hrun, ?_⟩
  rcases Edit.unchanged_of_failure hvalid hrun with rfl | ⟨-, -, hrollback, hsame⟩
  · rw [Prod.mk.injEq] at hbefore hafter
    have hpending : 10 = 11 := hbefore.1.symm.trans hafter.1
    exact absurd hpending (by decide)
  · exact ⟨hrollback, hsame⟩

end ObjectGraph

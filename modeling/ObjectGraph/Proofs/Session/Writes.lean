import ObjectGraph.Proofs.Schema.Admission
import ObjectGraph.Proofs.Session.Editing

namespace ObjectGraph

open Stateful (Triple)

namespace Editing

structure Closed (I : Session → Prop) : Prop where
  put : ∀ (s : Session) (k : Key) (v : Bytes) (w : Workspace), I s → s.catalog.schema.Admits k v →
    s.workspace.put k.bytes v = .ok w → I { s with workspace := w }
  erase : ∀ (s : Session) (bs : Bytes) (w : Workspace), I s → s.workspace.delete bs = .ok w →
    I { s with workspace := w }
  rollback : ∀ s : Session, I s → I s.rollback

def Keeps {α : Type} (I : Session → Prop) (m : Editing α) : Prop :=
  Triple I m (fun _ => I) (fun _ => I)

variable {I : Session → Prop} {α β γ : Type}

namespace Keeps

theorem pure (a : α) : Keeps I (Pure.pure a : Editing α) := Triple.pure fun _ hs => hs

theorem throw (e : Error) : Keeps I (MonadExcept.throw e : Editing α) := Triple.throw fun _ hs => hs

theorem bind {m : Editing α} {f : α → Editing β} (hm : Keeps I m) (hf : ∀ a, Keeps I (f a)) :
    Keeps I (m >>= f) := Triple.bind hm hf

theorem throw_bind (e : Error) (f : α → Editing β) : Keeps I (MonadExcept.throw e >>= f) :=
  Triple.throw_bind fun _ hs => hs

theorem read {f : Session → Editing β} (hf : ∀ s, Keeps I (f s)) : Keeps I (get >>= f) := by
  apply Triple.get_bind
  rintro t ht _ rfl
  exact hf _ _ ht

theorem ofExcept (x : Except Error α) : Keeps I (ofExcept x : Editing α) :=
  Triple.ofExcept (fun _ _ hs _ => hs) fun _ _ hs _ => hs

theorem discard {m : Editing α} (h : Keeps I m) : Keeps I (discard m) :=
  (Triple.discard h).mono (fun _ hs => hs) (fun _ _ ⟨_, hs⟩ => hs) fun _ _ hs => hs

theorem forM {f : γ → Editing PUnit} (h : ∀ x, Keeps I (f x)) (xs : List γ) : Keeps I (xs.forM f) :=
  Triple.forM (I := fun _ => I) (fun x _ => h x) xs

theorem forM_of_mem {f : γ → Editing PUnit} {xs : List γ} (h : ∀ x ∈ xs, Keeps I (f x)) : Keeps I (xs.forM f) := by
  induction xs with
  | nil => exact pure _
  | cons x xs ih =>
    obtain ⟨hx, hxs⟩ := List.forall_mem_cons.mp h
    exact hx.bind fun _ => ih hxs

theorem ask (question : Session → Except Error α) : Keeps I (ask question) :=
  read fun s => ofExcept (question s)

theorem requireWritable : Keeps I requireWritable := by
  apply read
  intro s
  split
  · exact pure _
  · exact throw _

theorem of_run {m : Editing α} (h : Keeps I m) {s t : Session} {result : Except Error α} (hs : I s)
    (hrun : m.run s = (result, t)) : I t := by
  have hm := h s hs
  rw [hrun] at hm
  cases result with
  | error e => exact hm
  | ok a => exact hm

end Keeps

theorem closed_pinned (c : Catalog) (base : Table) : Closed fun s => s.catalog = c ∧ s.workspace.base = base where
  put := by
    rintro s k v w ⟨hcatalog, hbase⟩ - hput
    obtain ⟨o, -, rfl⟩ := Workspace.put_eq_ok hput
    exact ⟨hcatalog, hbase⟩
  erase := by
    rintro s bs w ⟨hcatalog, hbase⟩ hdelete
    rcases Workspace.delete_eq_ok hdelete with ⟨-, o, -, rfl⟩ | ⟨-, rfl⟩
    · exact ⟨hcatalog, hbase⟩
    · exact ⟨hcatalog, hbase⟩
  rollback _ hs := hs

namespace Closed

theorem keeps_put (hI : Closed I) (k : Key) (v : Bytes) :
    Triple (fun s => I s ∧ s.catalog.schema.Admits k v) (Editing.put k v) (fun _ => I) (fun _ => I) := by
  apply Triple.get_bind
  rintro s ⟨hs, hv⟩
  apply Triple.ofExcept_bind
  · rintro w hw _ rfl
    exact hI.put _ k v w hs hv hw
  · exact fun t e ht _ => ht ▸ hs

theorem keeps_putHalf (hI : Closed I) (h : Half) : Keeps I (Editing.put (.association h) []) :=
  (hI.keeps_put (.association h) []).mono (fun _ hs => ⟨hs, rfl⟩) (fun _ _ hs => hs) fun _ _ hs => hs

theorem keeps_erase (hI : Closed I) (bs : Bytes) : Keeps I (Editing.erase bs) := by
  apply Triple.get_bind
  intro s hs
  apply Triple.ofExcept_bind
  · rintro w hw _ rfl
    exact hI.erase _ bs w hs hw
  · exact fun t e ht _ => ht ▸ hs

theorem keeps_rollback (hI : Closed I) : Keeps I (modify Session.rollback) :=
  fun s hs => hI.rollback s hs

theorem keeps_create (hI : Closed I) (type object : Id) : Keeps I (create type object) := by
  refine Keeps.requireWritable.bind fun _ => Triple.get_bind fun s hs => ?_
  have hrefused : ∀ t, t = s → I t := fun t ht => ht ▸ hs
  dsimp only
  split
  · exact Triple.throw_bind hrefused
  next htype =>
    split
    · exact Triple.throw_bind hrefused
    · split
      · exact Triple.throw_bind hrefused
      · have hknown : (s.catalog.schema.type? type).isSome := by
          rwa [Option.isNone_iff_eq_none, ← ne_eq, ← Option.isSome_iff_ne_none] at htype
        apply (hI.keeps_put _ _).mono _ (fun _ _ ht => ht) fun _ _ ht => ht
        rintro t rfl
        exact ⟨hs, type, rfl, hknown⟩

theorem keeps_setValue (hI : Closed I) (object field : Id) (raw : Bytes) :
    Keeps I (setValue object field raw) := by
  refine Keeps.requireWritable.bind fun _ => (Keeps.ask _).bind fun type => ?_
  apply ask_bind fun s e hs _ => hs
  intro d
  apply Triple.bind (Q := fun _ s => (I s ∧ s.scalarField type field = .ok d) ∧
    d.checkValue raw = .ok ⟨⟩)
  · exact Triple.ofExcept (fun s _ hs hcheck => ⟨hs, hcheck⟩) fun s e hs _ => hs.1
  intro _
  split
  · exact (hI.keeps_erase _).mono (fun s hs => hs.1.1) (fun _ _ hs => hs) fun _ _ hs => hs
  next hne =>
    apply (hI.keeps_put _ _).mono _ (fun _ _ hs => hs) fun _ _ hs => hs
    rintro s ⟨⟨hs, hd⟩, hcheck⟩
    obtain ⟨hfield, hscalar⟩ := Session.scalarField_eq_ok hd
    obtain ⟨x, hx, htype⟩ := FieldDef.checkValue_eq_ok (by simpa using hne) hcheck
    exact ⟨hs, d, x, hfield.defined, hscalar, hx, htype⟩

theorem keeps_delete (hI : Closed I) (object : Id) : Keeps I (delete object) := by
  refine Keeps.requireWritable.bind fun _ => Keeps.read fun s => ?_
  split
  · exact (Keeps.forM hI.keeps_erase _).bind fun _ => (Keeps.forM hI.keeps_erase _).bind fun _ =>
      Keeps.pure _
  · exact Keeps.pure _

theorem keeps_eraseEdge (hI : Closed I) (edge : Half) : Keeps I (eraseEdge edge) :=
  (hI.keeps_erase _).bind fun _ => hI.keeps_erase _

theorem keeps_unlinkAll (hI : Closed I) (object field : Id) : Keeps I (unlinkAll object field) :=
  Keeps.requireWritable.bind fun _ => (Keeps.ask _).bind fun _ =>
    (Keeps.forM hI.keeps_eraseEdge _).bind fun _ => Keeps.pure _

theorem keeps_unlink (hI : Closed I) (edge : Half) : Keeps I (unlink edge) := by
  refine Keeps.requireWritable.bind fun _ => Keeps.read fun s => ?_
  split
  · exact (hI.keeps_eraseEdge edge).bind fun _ => Keeps.pure _
  · exact Keeps.pure _

theorem keeps_link (hI : Closed I) (edge : Half) : Keeps I (link edge) := by
  have hputs : Keeps I (do Editing.put (.association edge) []; Editing.put (.association edge.mirror) []) :=
    (hI.keeps_putHalf edge).bind fun _ => hI.keeps_putHalf edge.mirror
  have hclear (a f : Id) (p : Pairing) {rest : Editing Unit} (hrest : Keeps I rest) :
      Keeps I (if p.multi = true then rest else do discard (unlinkAll a f); rest) := by
    split
    · exact hrest
    · exact (hI.keeps_unlinkAll a f).discard.bind fun _ => hrest
  refine Keeps.requireWritable.bind fun _ => (Keeps.ask _).bind fun near => (Keeps.ask _).bind fun far => ?_
  dsimp only
  split
  · exact Keeps.throw_bind _ _
  · refine Keeps.read fun s => ?_
    split
    · exact Keeps.pure _
    · exact hclear _ _ near (hclear _ _ far hputs)

theorem keeps_perform (hI : Closed I) (edit : Edit) : Keeps I edit.perform := by
  cases edit with
  | create type object => exact hI.keeps_create type object
  | createRandom type bits => exact ((hI.keeps_create _ _).bind fun _ => Keeps.pure _).discard
  | delete object => exact (hI.keeps_delete object).discard
  | setValue object field raw => exact hI.keeps_setValue object field raw
  | link edge => exact hI.keeps_link edge
  | unlink edge => exact (hI.keeps_unlink edge).discard
  | unlinkAll object field => exact (hI.keeps_unlinkAll object field).discard
  | rollback => exact hI.keeps_rollback

end Closed

end Editing

namespace Schema

open Editing (Closed Keeps)

variable {I : Session → Prop}

theorem composable_keeps (hI : Closed I) : Composable fun _ m => Keeps I m where
  pure := Keeps.pure
  bind := Keeps.bind
  discard := Keeps.discard
  ask := Keeps.ask
  create := hI.keeps_create
  delete := hI.keeps_delete
  setValue := hI.keeps_setValue

theorem keeps_store (hI : Closed I) (s : Schema) : Keeps I s.store := (composable_keeps hI).store s

end Schema

end ObjectGraph

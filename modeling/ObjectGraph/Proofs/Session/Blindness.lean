import ObjectGraph.Proofs.Lockstep
import ObjectGraph.Proofs.Session.Editing

namespace ObjectGraph

open Stateful (Lockstep)

structure Recorders.Alike (r r' : Recorders) : Prop where
  draft_eq : r'.draft.map (·.quota.capacity) = r.draft.map (·.quota.capacity)
  indexer_eq : r'.indexer.map Indexer.reset = r.indexer.map Indexer.reset

theorem Recorders.Alike.refl (r : Recorders) : r.Alike r := ⟨rfl, rfl⟩

theorem Recorders.Alike.trans {r r' r'' : Recorders} (h : r.Alike r') (h' : r'.Alike r'') : r.Alike r'' :=
  ⟨h'.draft_eq.trans h.draft_eq, h'.indexer_eq.trans h.indexer_eq⟩

structure Session.Alike (R : Snapshot → Snapshot → Prop) (s s' : Session) : Prop where
  catalog_eq : s'.catalog = s.catalog
  writable_eq : s'.writable = s.writable
  actor_eq : s'.actor = s.actor
  workspace_eq : s'.workspace = s.workspace
  snapshot : R s.snapshot s'.snapshot
  recorders : s.recorders.Alike s'.recorders

variable {R : Snapshot → Snapshot → Prop} {s s' : Session}

theorem Session.Alike.eq (h : s.Alike R s') :
    s' = { s with snapshot := s'.snapshot, recorders := s'.recorders } := by
  obtain ⟨_, _, _, _, _, _⟩ := s'
  obtain ⟨rfl, rfl, rfl, rfl, -, -⟩ := h
  rfl

namespace Editing

def Blind {α : Type} (m : Editing α) : Prop :=
  ∀ R, Lockstep (Session.Alike R) m m (Session.Alike R) (Session.Alike R)

namespace Blind

variable {α β γ : Type}

theorem pure (a : α) : Blind (Pure.pure a) := fun _ => Lockstep.pure fun _ _ h => h

theorem throw (e : Error) : Blind (MonadExcept.throw e : Editing α) :=
  fun _ => Lockstep.throw fun _ _ h => h

theorem bind {m : Editing α} {f : α → Editing β} (hm : Blind m) (hf : ∀ a, Blind (f a)) :
    Blind (m >>= f) := fun R => (hm R).bind fun a => hf a R

theorem throw_bind (e : Error) (f : α → Editing β) : Blind (MonadExcept.throw e >>= f) :=
  fun _ => (Lockstep.throw fun _ _ h => h).bind fun _ _ _ => False.elim

theorem read {f : Session → Editing β}
    (hsame : ∀ (s : Session) snapshot recorders, f { s with snapshot, recorders } = f s)
    (hf : ∀ s, Blind (f s)) : Blind (get >>= f) := by
  intro R
  apply Lockstep.get_bind
  intro s s' hs
  have hf' : f s' = f s := by
    rw [hs.eq]
    exact hsame s _ _
  rw [hf']
  apply (hf s R).mono _ (fun _ _ h => h) fun _ _ h => h
  rintro _ _ ⟨rfl, rfl⟩
  exact hs

theorem ofExcept (x : Except Error α) : Blind (ofExcept x) :=
  fun _ => Lockstep.ofExcept x (fun _ _ h => h) fun _ _ h => h

theorem discard {m : Editing α} (h : Blind m) : Blind (discard m) := fun R => (h R).discard

theorem forM {f : γ → Editing PUnit} (h : ∀ x, Blind (f x)) (xs : List γ) : Blind (xs.forM f) :=
  fun R => Lockstep.forM (fun x => h x R) xs

theorem ite {P : Prop} [Decidable P] {m m' : Editing α} (h : Blind m) (h' : Blind m') :
    Blind (if P then m else m') := fun R => (h R).ite (h' R)

theorem ask {question : Session → Except Error α}
    (h : ∀ (s : Session) snapshot recorders, question { s with snapshot, recorders } = question s) :
    Blind (ask question) :=
  read (fun s snapshot recorders => congrArg _ (h s snapshot recorders)) fun s => ofExcept (question s)

theorem requireWritable : Blind requireWritable :=
  read (fun _ _ _ => rfl) fun _ => ite (pure _) (throw _)

theorem stage (f : Workspace → Except Error Workspace) :
    Blind (do
      let s ← get
      set { s with workspace := ← MonadExcept.ofExcept (f s.workspace) }) := by
  intro R
  apply Lockstep.get_bind
  intro s s' hs
  rw [hs.workspace_eq]
  cases f s.workspace with
  | error e =>
    rintro _ _ ⟨rfl, rfl⟩
    exact ⟨.error e, hs⟩
  | ok w =>
    rintro _ _ ⟨rfl, rfl⟩
    exact ⟨.ok rfl, hs.catalog_eq, hs.writable_eq, hs.actor_eq, rfl, hs.snapshot, hs.recorders⟩

theorem put (k : Key) (v : Bytes) : Blind (put k v) :=
  stage (·.put k.bytes v)

theorem erase (bs : Bytes) : Blind (erase bs) := stage (·.delete bs)

theorem rollback : Blind (modify Session.rollback) := by
  intro R
  apply Lockstep.modify
  intro s s' hs
  exact ⟨hs.catalog_eq, hs.writable_eq, hs.actor_eq, congrArg Workspace.reset hs.workspace_eq, hs.snapshot,
    hs.recorders⟩

theorem create (type object : Id) : Blind (create type object) := by
  refine requireWritable.bind fun _ => read (fun _ _ _ => rfl) fun s => ?_
  dsimp only
  split
  · exact throw_bind _ _
  · split
    · exact throw_bind _ _
    · split
      · exact throw_bind _ _
      · exact put _ _

theorem delete (object : Id) : Blind (delete object) := by
  refine requireWritable.bind fun _ => read (fun _ _ _ => rfl) fun s => ite ?_ (pure _)
  exact (forM erase _).bind fun _ => (forM erase _).bind fun _ => pure _

theorem setValue (object field : Id) (raw : Bytes) : Blind (setValue object field raw) := by
  refine requireWritable.bind fun _ => (ask fun _ _ _ => rfl).bind fun type => ?_
  refine (ask fun _ _ _ => rfl).bind fun d => (ofExcept _).bind fun _ => ?_
  exact ite (erase _) (put _ _)

theorem eraseEdge (edge : Half) : Blind (eraseEdge edge) := (erase _).bind fun _ => erase _

theorem unlinkAll (object field : Id) : Blind (unlinkAll object field) := by
  refine requireWritable.bind fun _ => (ask fun _ _ _ => rfl).bind fun _ => ?_
  exact (forM eraseEdge _).bind fun _ => pure _

theorem unlink (edge : Half) : Blind (unlink edge) := by
  refine requireWritable.bind fun _ => read (fun _ _ _ => rfl) fun s => ite ?_ (pure _)
  exact (eraseEdge edge).bind fun _ => pure _

theorem link (edge : Half) : Blind (link edge) := by
  have hputs : Blind (do Editing.put (.association edge) []; Editing.put (.association edge.mirror) []) :=
    (put _ _).bind fun _ => put _ _
  have hclear (a f : Id) (p : Pairing) {rest : Editing Unit} (hrest : Blind rest) :
      Blind (if p.multi = true then rest else do Functor.discard (Editing.unlinkAll a f); rest) :=
    ite hrest ((unlinkAll a f).discard.bind fun _ => hrest)
  refine requireWritable.bind fun _ => (ask fun _ _ _ => rfl).bind fun near => ?_
  refine (ask fun _ _ _ => rfl).bind fun far => ?_
  dsimp only
  split
  · exact throw_bind _ _
  · exact read (fun _ _ _ => rfl) fun s => ite (pure _) (hclear _ _ near (hclear _ _ far hputs))

end Blind

theorem blind_perform (edit : Edit) : Blind edit.perform := by
  cases edit with
  | create type object => exact Blind.create type object
  | createRandom type bits => exact ((Blind.create _ _).bind fun _ => Blind.pure _).discard
  | delete object => exact (Blind.delete object).discard
  | setValue object field raw => exact Blind.setValue object field raw
  | link edge => exact Blind.link edge
  | unlink edge => exact (Blind.unlink edge).discard
  | unlinkAll object field => exact (Blind.unlinkAll object field).discard
  | rollback => exact Blind.rollback

end Editing

end ObjectGraph

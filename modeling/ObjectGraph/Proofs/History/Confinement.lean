import ObjectGraph.Proofs.History.Draft
import ObjectGraph.Proofs.Lockstep

namespace ObjectGraph.Draft

open Stateful (Lockstep)

def headed (time : Int64) (actor : Id) (d : Draft) : Draft := { d with time, actor }

def Twins (time : Int64) (actor : Id) (capacity : Nat) (d d' : Draft) : Prop :=
  d' = d.headed time actor ∧ d.quota.capacity = capacity

def Confined {α : Type} (m : Drafting α) : Prop :=
  ∀ time actor n, Lockstep (Twins time actor n) m m (Twins time actor n) (Twins time actor n)

namespace Confined

variable {α β : Type} {m : Drafting α} {f : α → Drafting β}

theorem pure (a : α) : Confined (Pure.pure a : Drafting α) :=
  fun _ _ _ => Lockstep.pure fun _ _ h => h

theorem throw (e : Error) : Confined (MonadExcept.throw e : Drafting α) :=
  fun _ _ _ => Lockstep.throw fun _ _ h => h

theorem ofExcept (x : Except Error α) : Confined (MonadExcept.ofExcept x : Drafting α) :=
  fun _ _ _ => Lockstep.ofExcept x (fun _ _ h => h) fun _ _ h => h

theorem bind (hm : Confined m) (hf : ∀ a, Confined (f a)) : Confined (m >>= f) :=
  fun time actor n => (hm time actor n).bind fun a => hf a time actor n

theorem modify {g : Draft → Draft} (h : ∀ time actor d, g (d.headed time actor) = (g d).headed time actor)
    (hcapacity : ∀ d, (g d).quota.capacity = d.quota.capacity) :
    Confined (modify g : Drafting PUnit) := by
  intro time actor n
  apply Lockstep.modify
  rintro d _ ⟨rfl, hd⟩
  exact ⟨h time actor d, (hcapacity d).trans hd⟩

theorem get_bind {g : Draft → Drafting β} (hhead : ∀ time actor d, g (d.headed time actor) = g d)
    (h : ∀ d, Confined (g d)) : Confined (get >>= g) := by
  intro time actor n
  apply Lockstep.get_bind
  rintro d _ ⟨rfl, hd⟩
  rw [hhead]
  apply (h d time actor n).mono _ (fun _ _ h => h) fun _ _ h => h
  rintro _ _ ⟨rfl, rfl⟩
  exact ⟨rfl, hd⟩

theorem ite {P : Prop} [Decidable P] {m' : Drafting α} (h : Confined m) (h' : Confined m') :
    Confined (if P then m else m') := fun time actor n => (h time actor n).ite (h' time actor n)

theorem forM {γ : Type} {f : γ → Drafting PUnit} (h : ∀ a, Confined (f a)) (l : List γ) :
    Confined (l.forM f) := fun time actor n => Lockstep.forM (fun a => h a time actor n) l

theorem headed (h : Confined m) (time : Int64) (actor : Id) (d : Draft) :
    m.run (d.headed time actor) = ((m.run d).1, (m.run d).2.headed time actor) := by
  rcases (h time actor _).cases_run (s := d) ⟨rfl, rfl⟩ with
    ⟨a, t, t', hrun, hrun', rfl, -⟩ | ⟨e, t, t', hrun, hrun', rfl, -⟩
  · rw [hrun, hrun']
  · rw [hrun, hrun']

theorem capacity (h : Confined m) (d : Draft) : (m.run d).2.quota.capacity = d.quota.capacity := by
  rcases (h d.time d.actor _).cases_run (s := d) ⟨rfl, rfl⟩ with
    ⟨a, t, t', hrun, -, -, hcapacity⟩ | ⟨e, t, t', hrun, -, -, hcapacity⟩
  · rw [hrun, hcapacity]
  · rw [hrun, hcapacity]

theorem head_eq (h : Confined m) (d : Draft) :
    (m.run d).2.time = d.time ∧ (m.run d).2.actor = d.actor := by
  have hrun : m.run d = ((m.run d).1, (m.run d).2.headed d.time d.actor) := h.headed d.time d.actor d
  have hlast : (m.run d).2 = (m.run d).2.headed d.time d.actor := congrArg Prod.snd hrun
  rw [hlast]
  exact ⟨rfl, rfl⟩

end Confined

theorem confined_take (n : Nat) : Confined (take n) := by
  intro time actor capacity
  apply Lockstep.get_bind
  rintro d _ ⟨rfl, hd⟩
  have hquota : (d.headed time actor).quota = d.quota := rfl
  rw [hquota]
  cases htake : d.quota.take n with
  | error e =>
    apply Lockstep.throw
    rintro _ _ ⟨rfl, rfl⟩
    exact ⟨rfl, hd⟩
  | ok quota =>
    rw [Quota.take] at htake
    split at htake
    · cases htake
      exact fun _ _ _ => ⟨.ok rfl, rfl, hd⟩
    · contradiction

theorem confined_openBlock (object : Id) : Confined (openBlock object) :=
  .get_bind (fun _ _ _ => rfl) fun _ =>
    .ite (.pure _) ((confined_take _).bind fun _ => .modify (fun _ _ _ => rfl) fun _ => rfl)

theorem confined_add (object : Id) (e : Event) : Confined (add object e) := by
  apply (confined_openBlock object).bind
  intro _
  exact (confined_take _).bind fun _ => .modify (fun _ _ _ => rfl) fun _ => rfl

theorem confined_addObjectEvent (object : Id) (e : Event) (type : Id) :
    Confined (addObjectEvent object e type) :=
  (confined_add object e).bind fun _ => .modify (fun _ _ _ => rfl) fun _ => rfl

theorem confined_addChange (object field : Id) (old new : Bytes) :
    Confined (addChange object field old new) := by
  apply (confined_add _ _).bind
  intro _
  apply (confined_take _).bind
  intro _
  refine (Confined.modify (fun _ _ _ => ?_) fun _ => ?_).bind fun _ => ?_
  · rfl
  · rfl
  exact (confined_take _).bind fun _ => .modify (fun _ _ _ => rfl) fun _ => rfl

theorem confined_observeObject (object : Id) (c : Change) : Confined (observeObject object c) := by
  apply (Confined.ofExcept _).bind
  intro old
  apply (Confined.ofExcept _).bind
  intro new
  cases old with
  | none =>
    cases new with
    | none => exact .pure _
    | some type => exact confined_addObjectEvent _ _ _
  | some before =>
    cases new with
    | none =>
      exact (confined_addObjectEvent _ _ _).bind fun _ => .modify (fun _ _ _ => rfl) fun _ => rfl
    | some after =>
      exact .ite (.pure _)
        ((confined_addObjectEvent _ _ _).bind fun _ => confined_addObjectEvent _ _ _)

theorem confined_observeAssociation (h : Half) (c : Change) : Confined (observeAssociation h c) := by
  rw [observeAssociation]
  split
  · exact confined_add _ _
  · exact confined_add _ _
  · exact .pure _

theorem confined_observe (c : Change) : Confined (observe c) := by
  rw [observe]
  split
  · exact .throw _
  · exact confined_observeObject _ _
  · exact .get_bind (fun _ _ _ => rfl) fun _ => .ite (.pure _) (confined_addChange _ _ _ _)
  · exact .get_bind (fun _ _ _ => rfl) fun _ => .ite (.pure _) (confined_observeAssociation _ _)

end ObjectGraph.Draft

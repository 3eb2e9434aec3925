import ObjectGraph.Proofs.Session.Refinement

namespace ObjectGraph

open Stateful (Triple)

inductive Call where
  | create (type object : Id)
  | createRandom (type bits : Id)
  | delete (object : Id)
  | setValue (object field : Id) (raw : Bytes)
  | link (edge : Half)
  | unlink (edge : Half)
  | unlinkAll (object field : Id)
  | typeOf (object : Id)
  | value (object field : Id)
  | objects (type : Id)
  | partners (object field : Id)
  | partner (object field : Id)
  | count (object field : Id)

inductive Answer where
  | done
  | object (object : Id)
  | verdict (holds : Bool)
  | count (n : Nat)
  | found (id : Option Id)
  | value (raw : Bytes)
  | objects (ids : List Id)
deriving DecidableEq

def Call.perform : Call → Editing Answer
  | create type object => (fun _ => .object object) <$> Editing.create type object
  | createRandom type bits => .object <$> Editing.createRandom type bits
  | delete object => .verdict <$> Editing.delete object
  | setValue object field raw => (fun _ => .done) <$> Editing.setValue object field raw
  | link edge => (fun _ => .done) <$> Editing.link edge
  | unlink edge => .verdict <$> Editing.unlink edge
  | unlinkAll object field => .count <$> Editing.unlinkAll object field
  | typeOf object => .found <$> Editing.ask (·.type? object)
  | value object field => .value <$> Editing.ask (·.value object field)
  | objects type => .objects <$> Editing.ask (·.objects type)
  | partners object field => .objects <$> Editing.ask (·.partners object field)
  | partner object field => .found <$> Editing.ask (·.partner? object field)
  | count object field => .count <$> Editing.ask fun s => (s.links object field).map List.length

namespace Call

variable {α : Type}

theorem run_question (question : Session → Except Error α) (f : α → Answer) (s : Session) :
    ((f <$> Editing.ask question).run s).2 = s := by
  rw [Stateful.run_map, Editing.ask, Stateful.run_bind, Stateful.run_get]
  dsimp only
  rw [Stateful.run_ofExcept]

theorem run_discard (m : Editing α) (f : α → Answer) (s : Session) :
    (discard m).run s = (((f <$> m).run s).1.map fun _ => ⟨⟩, ((f <$> m).run s).2) := by
  have hdiscard : (discard m).run s = ((m.run s).1.map fun _ => ⟨⟩, (m.run s).2) :=
    Stateful.run_map _ _ _
  rw [hdiscard, Stateful.run_map]
  cases (m.run s).1 <;> rfl

theorem run_unit (m : Editing Unit) (f : Unit → Answer) (s : Session) :
    m.run s = (((f <$> m).run s).1.map fun _ => ⟨⟩, ((f <$> m).run s).2) := by
  rw [Stateful.run_map]
  rcases m.run s with ⟨e | ⟨⟩, t⟩ <;> rfl

theorem perform_cases (call : Call) :
    (∀ s, (call.perform.run s).2 = s) ∨ ∃ edit : Edit, ∀ s,
      edit.perform.run s = ((call.perform.run s).1.map fun _ => ⟨⟩, (call.perform.run s).2) := by
  cases call with
  | create type object => exact .inr ⟨.create type object, run_unit _ _⟩
  | createRandom type bits => exact .inr ⟨.createRandom type bits, run_discard _ _⟩
  | delete object => exact .inr ⟨.delete object, run_discard _ _⟩
  | setValue object field raw => exact .inr ⟨.setValue object field raw, run_unit _ _⟩
  | link edge => exact .inr ⟨.link edge, run_unit _ _⟩
  | unlink edge => exact .inr ⟨.unlink edge, run_discard _ _⟩
  | unlinkAll object field => exact .inr ⟨.unlinkAll object field, run_discard _ _⟩
  | typeOf object => exact .inl (run_question _ _)
  | value object field => exact .inl (run_question _ _)
  | objects type => exact .inl (run_question _ _)
  | partners object field => exact .inl (run_question _ _)
  | partner object field => exact .inl (run_question _ _)
  | count object field => exact .inl (run_question _ _)

end Call

noncomputable def Graph.call (schema : Schema) (G : Graph) : Call → Except Error (Answer × Graph)
  | .create type object => (G.create schema type object).map (.object object, ·)
  | .createRandom type bits => (G.create schema type bits.ofRandom).map (.object bits.ofRandom, ·)
  | .delete object => .ok (.verdict (G.types object).isSome, G.without object)
  | .setValue object field raw => (G.setValue schema object field raw).map (.done, ·)
  | .link edge => (G.link schema edge).map (.done, ·)
  | .unlink edge => .ok (.verdict (edge.edge ∈ G.edges), G.lacking {edge.edge})
  | .unlinkAll object field => (G.unlinkAll schema object field).map fun (n, G') => (.count n, G')
  | .typeOf object => .ok (.found (G.types object), G)
  | .value object field => (G.value schema object field).map (.value ·, G)
  | .objects type => (G.objects schema type).map (.objects ·, G)
  | .partners object field => (G.partners schema object field).map (.objects ·, G)
  | .partner object field =>
    ((G.partners schema object field).map List.head?).map (.found ·, G)
  | .count object field => ((G.links schema object field).map Finset.card).map (.count ·, G)

namespace Editing

variable {α β : Type} {c : Catalog} {base : Table} {G : Graph}

theorem Simulates.map {m : Editing α} {outcome : Except Error (α × Graph)}
    (h : Simulates c base G m outcome) (f : α → β) :
    Simulates c base G (f <$> m) (outcome.map fun (a, G') => (f a, G')) := by
  intro s hs
  have hm := h s hs
  rw [Stateful.run_map]
  rcases hrun : m.run s with ⟨e | a, t⟩
  · rw [hrun] at hm
    refine hm.imp id ?_
    rintro ⟨rfl, ht⟩
    exact ⟨rfl, ht⟩
  · rw [hrun] at hm
    obtain ⟨G', rfl, ht⟩ := hm
    exact ⟨G', rfl, ht⟩

theorem simulates_edit {m : Editing Unit} {x : Except Error Graph} (a : α)
    (h : Simulates c base G m (x.map (⟨⟩, ·))) :
    Simulates c base G ((fun _ => a) <$> m) (x.map (a, ·)) := by
  have hm := h.map fun _ => a
  cases x <;> exact hm

theorem simulates_question {question : Session → Except Error α} {x : Except Error α} (f : α → β)
    (h : ∀ s : Session, s.Shows c base G.records → question s = x) :
    Simulates c base G (f <$> ask question) (x.map (f ·, G)) := by
  have hm := (simulates_ask h).map f
  cases x <;> exact hm

theorem createRandom_eq (type bits : Id) :
    createRandom type bits = (fun _ => bits.ofRandom) <$> create type bits.ofRandom :=
  (map_eq_pure_bind _ _).symm

theorem simulates_perform (hg : Integrity c.schema G.records) (hnil : c.schema.type? Id.nil = none)
    (call : Call) : Simulates c base G call.perform (G.call c.schema call) := by
  cases call with
  | create type object => exact simulates_edit _ (simulates_create type object)
  | createRandom type bits =>
    rw [Call.perform, createRandom_eq, Functor.map_map]
    exact simulates_edit _ (simulates_create type bits.ofRandom)
  | delete object => exact (simulates_delete hg object).map _
  | setValue object field raw => exact simulates_edit _ (simulates_setValue hg hnil object field raw)
  | link edge => exact simulates_edit _ (simulates_link hg hnil edge)
  | unlink edge => exact (simulates_unlink edge).map _
  | unlinkAll object field => exact (simulates_unlinkAll hg hnil object field).map _
  | typeOf object => exact simulates_question _ fun s hs => hs.type?_eq hg hnil object
  | value object field => exact simulates_question _ fun s hs => hs.value_eq hg hnil object field
  | objects type => exact simulates_question _ fun s hs => hs.objects_eq hg type
  | partners object field => exact simulates_question _ fun s hs => hs.partners_eq hg hnil object field
  | partner object field =>
    apply simulates_question
    intro s hs
    rw [Session.partner?, hs.partners_eq hg hnil]
    cases G.partners c.schema object field <;> rfl
  | count object field =>
    apply simulates_question
    intro s hs
    exact hs.map_links hg hnil rfl fun _ _ _ _ => hs.length_halves hg object field

end Editing

end ObjectGraph

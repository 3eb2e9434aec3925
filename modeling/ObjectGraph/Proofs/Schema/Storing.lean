import ObjectGraph.Schema.Stored

namespace ObjectGraph.Schema

structure Composable (K : (α : Type) → Editing α → Prop) : Prop where
  pure : ∀ {α : Type} (a : α), K α (Pure.pure a)
  bind : ∀ {α β : Type} {m : Editing α} {f : α → Editing β}, K α m → (∀ a, K β (f a)) → K β (m >>= f)
  discard : ∀ {α : Type} {m : Editing α}, K α m → K Unit (discard m)
  ask : ∀ {α : Type} (question : Session → Except Error α), K α (Editing.ask question)
  create : ∀ type object, K Unit (Editing.create type object)
  delete : ∀ object, K Bool (Editing.delete object)
  setValue : ∀ object field raw, K Unit (Editing.setValue object field raw)

namespace Composable

variable {K : (α : Type) → Editing α → Prop}

theorem forM {γ : Type} (hK : Composable K) {f : γ → Editing Unit} (h : ∀ x, K Unit (f x)) (xs : List γ) :
    K Unit (xs.forM f) := by
  induction xs with
  | nil => exact hK.pure _
  | cons x xs ih => exact hK.bind (h x) fun _ => ih

theorem ensureObject (hK : Composable K) (type object : Id) : K Unit (ensureObject type object) := by
  refine hK.bind (hK.ask _) fun found => ?_
  cases found with
  | none => exact hK.create type object
  | some t =>
    dsimp only
    split
    · exact hK.pure _
    · exact hK.bind (hK.discard (hK.delete object)) fun _ => hK.create type object

theorem storeType (hK : Composable K) (d : TypeDef) : K Unit (storeType d) :=
  hK.bind (hK.ensureObject _ _) fun _ => hK.bind (hK.setValue _ _ _) fun _ => hK.setValue _ _ _

theorem storeField (hK : Composable K) (d : FieldDef) : K Unit (storeField d) :=
  hK.bind (hK.ensureObject _ _) fun _ => hK.bind (hK.setValue _ _ _) fun _ =>
    hK.bind (hK.setValue _ _ _) fun _ => hK.bind (hK.setValue _ _ _) fun _ =>
      hK.bind (hK.setValue _ _ _) fun _ => hK.bind (hK.setValue _ _ _) fun _ => hK.setValue _ _ _

theorem store (hK : Composable K) (s : Schema) : K Unit s.store :=
  hK.bind (hK.forM hK.storeType _) fun _ => hK.forM hK.storeField _

end Composable

end ObjectGraph.Schema

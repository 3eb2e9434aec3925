import ObjectGraph.Schema.Basic

namespace ObjectGraph.Schema

variable {s : Schema}

inductive Inherits (s : Schema) : Id → Id → Prop where
  | refl (t : Id) : Inherits s t t
  | step {t p a : Id} {d : TypeDef} : s.type? t = some d → d.parent = some p → Inherits s p a →
      Inherits s t a

theorem inherits_of_reaches {a t : Id} {steps : Nat} (h : s.reaches a steps t = true) :
    s.Inherits t a := by
  induction steps generalizing t with
  | zero =>
    have heq : t = a := by simpa [reaches] using h
    exact heq ▸ .refl t
  | succ steps ih =>
    rw [reaches, Bool.or_eq_true, decide_eq_true_iff] at h
    rcases h with rfl | h
    · exact .refl t
    · obtain ⟨p, hp, hreach⟩ := (Option.any_eq_true _ _).mp h
      obtain ⟨d, hd, hparent⟩ := Option.bind_eq_some_iff.mp hp
      exact .step hd hparent (ih hreach)

structure HasField (s : Schema) (type field : Id) (d : FieldDef) : Prop where
  known : (s.type? type).isSome
  defined : s.field? field = some d
  inherits : s.Inherits type d.owner

theorem hasField_of_fieldOn {type field : Id} {d : FieldDef} (h : s.fieldOn type field = .ok d) :
    s.HasField type field d := by
  rw [fieldOn] at h
  split at h
  · contradiction
  next hknown =>
    split at h
    next d' hd =>
      split at h
      next hisA =>
        cases h
        exact ⟨Option.isSome_iff_ne_none.mpr (by simpa using hknown), hd, inherits_of_reaches hisA⟩
      · contradiction
    · contradiction

end ObjectGraph.Schema

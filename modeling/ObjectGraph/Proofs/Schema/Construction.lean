import Mathlib.Logic.Basic
import ObjectGraph.Proofs.Schema.Definitions
import ObjectGraph.Proofs.Stateful

namespace ObjectGraph.Schema

inductive Built : Schema → Prop where
  | builtin : Built builtin
  | addType {s s' : Schema} {d : TypeDef} : Built s → s.addType d = .ok s' → Built s'
  | addField {s s' : Schema} {d : FieldDef} : Built s → s.addField d = .ok s' → Built s'

variable {s s' : Schema}

theorem of_checkNew {id : Id} (h : s.checkNew id = .ok ⟨⟩) :
    ¬ Builtin.IsReserved id ∧ s.type? id = none ∧ s.field? id = none := by
  rw [checkNew] at h
  split at h
  · contradiction
  next hfree =>
    split at h
    · contradiction
    next hnew =>
      rw [not_or, Option.not_isSome_iff_eq_none, Option.not_isSome_iff_eq_none] at hnew
      exact ⟨hfree, hnew⟩

theorem addType_eq_ok {d : TypeDef} (h : s.addType d = .ok s') :
    s.checkNew d.id = .ok ⟨⟩ ∧ s' = s.withType d := by
  obtain ⟨_, hnew, h⟩ := Stateful.bind_eq_ok.mp h
  cases h
  exact ⟨hnew, rfl⟩

theorem addField_eq_ok {d : FieldDef} (h : s.addField d = .ok s') :
    s.checkNew d.id = .ok ⟨⟩ ∧ (s.type? d.owner).isSome ∧ (d.type.IsScalar ↔ d.pairing = none) ∧
      s' = s.withField d := by
  rw [addField] at h
  obtain ⟨_, hnew, h⟩ := Stateful.bind_eq_ok.mp h
  dsimp only at h
  split at h
  · contradiction
  next howner =>
    split at h
    · contradiction
    next hkind =>
      cases h
      refine ⟨hnew, by simpa [Option.isSome_iff_ne_none] using howner, ?_, rfl⟩
      rw [not_iff, Option.isSome_iff_ne_none] at hkind
      exact not_iff_not.mp hkind

theorem Built.withType {d : TypeDef} (h : s.Built) (hnew : s.checkNew d.id = .ok ⟨⟩) :
    (s.withType d).Built := by
  apply h.addType
  rw [Schema.addType, hnew]
  rfl

theorem Built.withField {d : FieldDef} (h : s.Built) (hnew : s.checkNew d.id = .ok ⟨⟩)
    (howner : (s.type? d.owner).isSome) (hkind : d.type.IsScalar ↔ d.pairing = none) :
    (s.withField d).Built := by
  have hknown : (s.type? d.owner).isNone = false := by simp [Option.isNone_eq_false_iff, howner]
  have hfits : ¬ (d.type.IsScalar ↔ d.pairing.isSome) := by
    rw [hkind]
    cases d.pairing <;> simp
  apply h.addField
  rw [Schema.addField, hnew]
  simp [hknown, hfits, bind, Except.bind, pure, Except.pure]

theorem Built.lawful (h : s.Built) : s.Lawful := by
  induction h with
  | builtin => exact .builtin
  | @addType s s' d _ hadd ih =>
    obtain ⟨hnew, rfl⟩ := addType_eq_ok hadd
    obtain ⟨hfree, -, hfield⟩ := of_checkNew hnew
    rw [← put_type hfield]
    exact ih.put hfree
  | @addField s s' d _ hadd ih =>
    obtain ⟨hnew, -, -, rfl⟩ := addField_eq_ok hadd
    obtain ⟨hfree, htype, -⟩ := of_checkNew hnew
    rw [← put_field htype]
    exact ih.put hfree

theorem Built.type?_nil (h : s.Built) : s.type? Id.nil = none := h.lawful.type?_nil

end ObjectGraph.Schema

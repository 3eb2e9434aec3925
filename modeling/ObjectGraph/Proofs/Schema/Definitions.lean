import Mathlib.Logic.Function.Basic
import ObjectGraph.Proofs.Key
import ObjectGraph.Proofs.Ordered.Dictionary
import ObjectGraph.Schema.Basic

namespace ObjectGraph

open Dictionary (Ascending)
open Function (update)

inductive Definition where
  | type (d : TypeDef)
  | field (d : FieldDef)

namespace Definition

def id : Definition → Id
  | type d => d.id
  | field d => d.id

def references : Definition → List Id
  | type d => d.parent.toList
  | field d => d.owner :: (d.pairing.map Pairing.other).toList

end Definition

namespace Schema

def put (s : Schema) : Definition → Schema
  | .type d => Schema.withType ⟨s.types, Dictionary.erase compare d.id s.fields⟩ d
  | .field d => Schema.withField ⟨Dictionary.erase compare d.id s.types, s.fields⟩ d

def own (s : Schema) : List Definition := s.ownTypes.map .type ++ s.ownFields.map .field

def definition? (s : Schema) (a : Id) : Option Definition :=
  if Builtin.IsReserved a then none
  else ((s.type? a).map .type).or ((s.field? a).map .field)

structure Lawful (s : Schema) : Prop where
  types : Ascending compare s.types
  fields : Ascending compare s.fields
  type?_reserved : ∀ a, Builtin.IsReserved a → s.type? a = builtin.type? a
  field?_reserved : ∀ a, Builtin.IsReserved a → s.field? a = builtin.field? a
  disjoint : ∀ a, (s.type? a).isSome → s.field? a = none
  type_id : ∀ a d, s.type? a = some d → d.id = a
  field_id : ∀ a d, s.field? a = some d → d.id = a

variable {s t : Schema} {a : Id} {d : Definition}

theorem type?_withType (hs : Ascending compare s.types) (d : TypeDef) (a : Id) :
    (s.withType d).type? a = if a = d.id then some d else s.type? a := Dictionary.get?_insert hs ..

theorem field?_withField (hs : Ascending compare s.fields) (d : FieldDef) (a : Id) :
    (s.withField d).field? a = if a = d.id then some d else s.field? a := Dictionary.get?_insert hs ..

theorem put_type {d : TypeDef} (h : s.field? d.id = none) : s.put (.type d) = s.withType d := by
  rw [put, Dictionary.erase_of_find?_eq_none (Option.map_eq_none_iff.mp h)]

theorem put_field {d : FieldDef} (h : s.type? d.id = none) : s.put (.field d) = s.withField d := by
  rw [put, Dictionary.erase_of_find?_eq_none (Option.map_eq_none_iff.mp h)]

theorem type?_put (hs : s.Lawful) (d : Definition) (a : Id) : (s.put d).type? a =
    if a = d.id then (match d with | .type d => some d | .field _ => none) else s.type? a := by
  cases d with
  | type d => exact type?_withType hs.types d a
  | field d => exact Dictionary.get?_erase hs.types d.id a

theorem field?_put (hs : s.Lawful) (d : Definition) (a : Id) : (s.put d).field? a =
    if a = d.id then (match d with | .type _ => none | .field d => some d) else s.field? a := by
  cases d with
  | type d => exact Dictionary.get?_erase hs.fields d.id a
  | field d => exact field?_withField hs.fields d a

theorem definition?_eq_none (hfree : ¬ Builtin.IsReserved a) :
    s.definition? a = none ↔ s.type? a = none ∧ s.field? a = none := by
  rw [definition?, if_neg hfree, Option.or_eq_none_iff, Option.map_eq_none_iff, Option.map_eq_none_iff]

theorem definition?_eq_type {d : TypeDef} :
    s.definition? a = some (.type d) ↔ s.type? a = some d ∧ ¬ Builtin.IsReserved a := by
  rw [definition?]
  split
  next hreserved => simp [hreserved]
  next hfree => cases s.type? a <;> simp [hfree]

namespace Lawful

theorem builtin : Schema.builtin.Lawful where
  types := by decide
  fields := by decide
  type?_reserved := fun _ _ => rfl
  field?_reserved := fun _ _ => rfl
  disjoint := by
    intro a ha
    obtain ⟨d, hd⟩ := Option.isSome_iff_exists.mp ha
    have hmem : (a, d) ∈ Schema.builtin.types := (Dictionary.get?_eq_some_iff (by decide)).mp hd
    have hall : ∀ p ∈ Schema.builtin.types, Schema.builtin.field? p.1 = none := by decide
    exact hall _ hmem
  type_id := by
    intro a d hd
    have hmem : (a, d) ∈ Schema.builtin.types := (Dictionary.get?_eq_some_iff (by decide)).mp hd
    have hall : ∀ p ∈ Schema.builtin.types, p.2.id = p.1 := by decide
    exact hall _ hmem
  field_id := by
    intro a d hd
    have hmem : (a, d) ∈ Schema.builtin.fields := (Dictionary.get?_eq_some_iff (by decide)).mp hd
    have hall : ∀ p ∈ Schema.builtin.fields, p.2.id = p.1 := by decide
    exact hall _ hmem

theorem put (hs : s.Lawful) (hfree : ¬ Builtin.IsReserved d.id) : (s.put d).Lawful where
  types := by
    cases d with
    | type d => exact hs.types.insert _ _
    | field d => exact hs.types.erase _
  fields := by
    cases d with
    | type d => exact hs.fields.erase _
    | field d => exact hs.fields.insert _ _
  type?_reserved := by
    intro a ha
    have hne : a ≠ d.id := fun heq => hfree (heq ▸ ha)
    rw [type?_put hs, if_neg hne, hs.type?_reserved a ha]
  field?_reserved := by
    intro a ha
    have hne : a ≠ d.id := fun heq => hfree (heq ▸ ha)
    rw [field?_put hs, if_neg hne, hs.field?_reserved a ha]
  disjoint := by
    intro a
    rw [type?_put hs, field?_put hs]
    split
    · cases d <;> simp
    · exact hs.disjoint a
  type_id := by
    intro a x
    rw [type?_put hs]
    split
    next ha =>
      cases d with
      | type d =>
        rintro ⟨⟩
        exact ha.symm
      | field d => nofun
    next => exact hs.type_id a x
  field_id := by
    intro a x
    rw [field?_put hs]
    split
    next ha =>
      cases d with
      | type d => nofun
      | field d =>
        rintro ⟨⟩
        exact ha.symm
    next => exact hs.field_id a x

theorem type?_nil (hs : s.Lawful) : s.type? Id.nil = none := hs.type?_reserved _ (by decide)

theorem field?_nil (hs : s.Lawful) : s.field? Id.nil = none := hs.field?_reserved _ (by decide)

theorem definition?_eq_field (hs : s.Lawful) {d : FieldDef} :
    s.definition? a = some (.field d) ↔ s.field? a = some d ∧ ¬ Builtin.IsReserved a := by
  have hdisjoint := hs.disjoint a
  rw [definition?]
  split
  next hreserved => simp [hreserved]
  next hfree => cases h : s.type? a <;> simp_all

theorem id_eq (hs : s.Lawful) (hd : s.definition? a = some d) :
    d.id = a ∧ ¬ Builtin.IsReserved a := by
  cases d with
  | type d =>
    obtain ⟨hd, hfree⟩ := definition?_eq_type.mp hd
    exact ⟨hs.type_id a d hd, hfree⟩
  | field d =>
    obtain ⟨hd, hfree⟩ := hs.definition?_eq_field.mp hd
    exact ⟨hs.field_id a d hd, hfree⟩

theorem ext (hs : s.Lawful) (ht : t.Lawful) (h : ∀ a, s.definition? a = t.definition? a) : s = t := by
  have htypes : s.types = t.types := by
    apply hs.types.ext_get? ht.types
    intro a
    change s.type? a = t.type? a
    by_cases ha : Builtin.IsReserved a
    · rw [hs.type?_reserved a ha, ht.type?_reserved a ha]
    · apply Option.ext
      intro d
      have hd : s.definition? a = some (.type d) ↔ _ := definition?_eq_type
      rw [h, definition?_eq_type] at hd
      simpa [ha] using hd.symm
  have hfields : s.fields = t.fields := by
    apply hs.fields.ext_get? ht.fields
    intro a
    change s.field? a = t.field? a
    by_cases ha : Builtin.IsReserved a
    · rw [hs.field?_reserved a ha, ht.field?_reserved a ha]
    · apply Option.ext
      intro d
      have hd : s.definition? a = some (.field d) ↔ _ := hs.definition?_eq_field
      rw [h, ht.definition?_eq_field] at hd
      simpa [ha] using hd.symm
  cases s
  cases t
  simp_all

theorem mem_ownTypes (hs : s.Lawful) {d : TypeDef} :
    d ∈ s.ownTypes ↔ s.definition? d.id = some (.type d) := by
  rw [ownTypes, List.mem_filter, Dictionary.mem_values hs.types hs.type_id, definition?_eq_type,
    decide_eq_true_iff, type?]

theorem mem_ownFields (hs : s.Lawful) {d : FieldDef} :
    d ∈ s.ownFields ↔ s.definition? d.id = some (.field d) := by
  rw [ownFields, List.mem_filter, Dictionary.mem_values hs.fields hs.field_id, hs.definition?_eq_field,
    decide_eq_true_iff, field?]

theorem mem_own (hs : s.Lawful) : d ∈ s.own ↔ s.definition? d.id = some d := by
  rw [own, List.mem_append, List.mem_map, List.mem_map]
  cases d with
  | type d => simp [hs.mem_ownTypes, Definition.id]
  | field d => simp [hs.mem_ownFields, Definition.id]

theorem definition?_put (hs : s.Lawful) (hfree : ¬ Builtin.IsReserved d.id) :
    (s.put d).definition? = update s.definition? d.id (some d) := by
  funext a
  by_cases ha : a = d.id
  · rw [ha, Function.update_self, definition?, if_neg hfree, type?_put hs, field?_put hs]
    cases d <;> simp
  · rw [Function.update_of_ne ha, definition?, type?_put hs, field?_put hs, if_neg ha, if_neg ha]
    rfl

end Lawful

end Schema

end ObjectGraph

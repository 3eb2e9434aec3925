import ObjectGraph.Proofs.Graph.Machine
import ObjectGraph.Proofs.Schema.Overlay
import ObjectGraph.Proofs.Search.ValueOrder
import ObjectGraph.Proofs.Session.Refinement

namespace ObjectGraph

open Function (update)

namespace Definition

def kind : Definition → Id
  | type _ => Builtin.typeDef
  | field _ => Builtin.fieldDef

def parts : Definition → List (Id × Option Value)
  | type d => [(Builtin.typeName, some (.string d.name)), (Builtin.typeParent, d.parent.map .id)]
  | field d =>
    [(Builtin.fieldName, some (.string d.name)), (Builtin.fieldOwner, some (.id d.owner)),
      (Builtin.fieldType, some (.enum d.type.tag.toUInt32)), (Builtin.fieldIndexed, some (.boolean d.indexed)),
      (Builtin.fieldOther, d.pairing.map fun p => .id p.other),
      (Builtin.fieldMulti, d.pairing.map fun p => .boolean p.multi)]

def part (d : Definition) (field : Id) : Option Value := (d.parts.lookup field).join

variable {d e : Definition}

theorem kind_mem (d : Definition) : d.kind ∈ [Builtin.typeDef, Builtin.fieldDef] := by
  cases d with
  | type d => exact List.mem_cons_self
  | field d => exact .tail _ List.mem_cons_self

theorem kind_isReserved (d : Definition) : Builtin.IsReserved d.kind := by
  have hall : ∀ a ∈ [Builtin.typeDef, Builtin.fieldDef], Builtin.IsReserved a := by decide
  exact hall _ d.kind_mem

theorem kind_ne_nil (d : Definition) : d.kind ≠ Id.nil := by
  have hall : ∀ a ∈ [Builtin.typeDef, Builtin.fieldDef], a ≠ Id.nil := by decide
  exact hall _ d.kind_mem

theorem keys_parts (h : d.kind = e.kind) : d.parts.map Prod.fst = e.parts.map Prod.fst := by
  have hne : Builtin.typeDef ≠ Builtin.fieldDef := by decide
  cases d with
  | type d =>
    cases e with
    | type e => rfl
    | field e => exact absurd h hne
  | field d =>
    cases e with
    | type e => exact absurd h.symm hne
    | field e => rfl

theorem nodup_parts (d : Definition) : (d.parts.map Prod.fst).Nodup := by
  have htype : [Builtin.typeName, Builtin.typeParent].Nodup := by decide
  have hfield : [Builtin.fieldName, Builtin.fieldOwner, Builtin.fieldType, Builtin.fieldIndexed,
    Builtin.fieldOther, Builtin.fieldMulti].Nodup := by decide
  cases d with
  | type d => exact htype
  | field d => exact hfield

end Definition

namespace Schema

variable {s : Schema}

theorem isA_self (s : Schema) (type : Id) : s.isA type type := by
  rw [isA]
  cases s.types.length <;> simp [reaches]

theorem Lawful.scalarOn_builtin (hs : s.Lawful) {field : Id} {d : FieldDef}
    (hd : Schema.builtin.field? field = some d) : s.scalarOn d.owner field = .ok d := by
  have hbuiltin : ∀ p ∈ Schema.builtin.fields, Builtin.IsReserved p.2.owner ∧ Builtin.IsReserved p.1 ∧
      (Schema.builtin.type? p.2.owner).isSome ∧ p.2.type.IsScalar := by decide
  obtain ⟨howner, hfield, htype, hscalar⟩ :=
    hbuiltin _ ((Dictionary.get?_eq_some_iff Lawful.builtin.fields).mp hd)
  have hknown : (s.type? d.owner).isNone = false := by
    rw [hs.type?_reserved _ howner, Option.isNone_eq_false_iff, htype]
  have hon : s.fieldOn d.owner field = .ok d := by
    rw [fieldOn, hknown, hs.field?_reserved _ hfield, hd]
    simp only [Bool.false_eq_true, if_false, s.isA_self d.owner, if_true]
  rw [scalarOn, hon, Stateful.ok_bind, if_pos hscalar]
  rfl

theorem Lawful.isSome_kind (hs : s.Lawful) (d : Definition) : (s.type? d.kind).isSome := by
  have hall : ∀ a ∈ [Builtin.typeDef, Builtin.fieldDef], (Schema.builtin.type? a).isSome := by decide
  rw [hs.type?_reserved _ d.kind_isReserved]
  exact hall _ d.kind_mem

theorem Lawful.scalarOn_part (hs : s.Lawful) {d : Definition} {p : Id × Option Value} (hp : p ∈ d.parts) :
    ∃ x, s.scalarOn d.kind p.1 = .ok x ∧ ∀ v ∈ p.2, v.type = x.type := by
  have hsome {v : Value} {type : DataType} (hv : v.type = type) : ∀ w ∈ some v, w.type = type := by
    rintro _ ⟨⟩
    exact hv
  have hmap {α : Type} (f : α → Value) {type : DataType} (hf : ∀ a, (f a).type = type) (o : Option α) :
      ∀ w ∈ o.map f, w.type = type := by
    intro w hw
    obtain ⟨a, -, rfl⟩ := Option.map_eq_some_iff.mp hw
    exact hf a
  have hfield : ∃ x, Schema.builtin.field? p.1 = some x ∧ x.owner = d.kind ∧ ∀ v ∈ p.2, v.type = x.type := by
    cases d with
    | type d =>
      simp only [Definition.parts, List.mem_cons, List.not_mem_nil, or_false] at hp
      rcases hp with rfl | rfl
      · exact ⟨_, rfl, rfl, hsome rfl⟩
      · exact ⟨_, rfl, rfl, hmap .id (fun _ => rfl) d.parent⟩
    | field d =>
      simp only [Definition.parts, List.mem_cons, List.not_mem_nil, or_false] at hp
      rcases hp with rfl | rfl | rfl | rfl | rfl | rfl
      · exact ⟨_, rfl, rfl, hsome rfl⟩
      · exact ⟨_, rfl, rfl, hsome rfl⟩
      · exact ⟨_, rfl, rfl, hsome rfl⟩
      · exact ⟨_, rfl, rfl, hsome rfl⟩
      · exact ⟨_, rfl, rfl, hmap (fun p => .id p.other) (fun _ => rfl) d.pairing⟩
      · exact ⟨_, rfl, rfl, hmap (fun p => .boolean p.multi) (fun _ => rfl) d.pairing⟩
  obtain ⟨x, hx, howner, htype⟩ := hfield
  exact ⟨x, howner ▸ hs.scalarOn_builtin hx, htype⟩

theorem scalarOn_eq_ok {type field : Id} {d : FieldDef} (h : s.scalarOn type field = .ok d) :
    s.HasField type field d ∧ d.type.IsScalar := by
  rw [scalarOn] at h
  obtain ⟨d', hd, h⟩ := Stateful.bind_eq_ok.mp h
  split at h
  next hscalar =>
    cases h
    exact ⟨hasField_of_fieldOn hd, hscalar⟩
  · contradiction

end Schema

theorem Definition.part_eq_none {d e : Definition} (hkind : d.kind = e.kind) {field : Id}
    (h : d.parts.lookup field = none) : e.part field = none := by
  have hkeys : ∀ k, k ∈ d.parts.map Prod.fst ↔ k ∈ e.parts.map Prod.fst := by simp [keys_parts hkind]
  have hnone : e.parts.lookup field = none := by
    rw [List.lookup_eq_none_iff] at h ⊢
    intro p hp
    obtain ⟨q, hq, hqp⟩ := List.mem_map.mp ((hkeys p.1).mpr (List.mem_map_of_mem hp))
    exact hqp ▸ h q hq
  rw [part, hnone]
  rfl

theorem Definition.mem_parts {d : Definition} {field : Id} {v : Value} (h : d.part field = some v) :
    (field, some v) ∈ d.parts := by
  rw [part, Option.join_eq_some_iff, List.lookup_eq_some_iff] at h
  obtain ⟨before, after, hparts, -⟩ := h
  rw [hparts]
  exact List.mem_append_right _ List.mem_cons_self

theorem FieldDef.checkValue_parts {d : FieldDef} {value : Option Value} (h : ∀ v ∈ value, v.type = d.type) :
    d.checkValue ((value.map Value.encode).getD []) = .ok ⟨⟩ := by
  cases value with
  | none => rfl
  | some v =>
    rw [checkValue, Option.map_some, Option.getD_some, Value.decode_encode]
    simp only [if_pos (h v rfl)]

namespace Graph

variable {schema : Schema} {G : Graph} {a field type : Id} {d : FieldDef} {value : Option Value}

def ofDefinitions (f : Id → Option Definition) : Graph where
  types a := (f a).map Definition.kind
  values a field := (f a).bind fun d => (d.part field).map Value.encode
  edges := ∅

theorem integrity_ofDefinitions (hs : schema.Lawful) (f : Id → Option Definition) :
    Integrity schema (ofDefinitions f).records where
  object := by
    intro a v hv
    obtain ⟨_, hkind, rfl⟩ := Option.map_eq_some_iff.mp hv
    obtain ⟨d, -, rfl⟩ := Option.map_eq_some_iff.mp hkind
    exact ⟨d.kind, rfl, hs.isSome_kind d⟩
  value := by
    intro a field v hv
    obtain ⟨d, hd, hpart⟩ := Option.bind_eq_some_iff.mp hv
    obtain ⟨x, hx, rfl⟩ := Option.map_eq_some_iff.mp hpart
    obtain ⟨fd, hscalar, htype⟩ := hs.scalarOn_part (Definition.mem_parts hx)
    obtain ⟨hfield, hscalar⟩ := Schema.scalarOn_eq_ok hscalar
    have hkind : (ofDefinitions f).records.HasType a d.kind := by
      refine ⟨?_, d.kind_ne_nil⟩
      simp [records, ofDefinitions, hd]
    exact ⟨List.cons_ne_nil _ _, d.kind, fd, x, hkind, hfield, hscalar, Value.decode_encode x, htype x rfl⟩
  half := nofun
  mirrored := fun _ => rfl
  single := nofun

section Value

variable (htype : G.types a = some type) (hd : schema.scalarOn type field = .ok d)
  (hvalue : ∀ v ∈ value, v.type = d.type)

include htype hd hvalue

theorem setValue_eq_ok : G.setValue schema a field ((value.map Value.encode).getD []) =
    .ok (G.withValue a field (value.map Value.encode)) := by
  rw [setValue, typeOf, htype, Stateful.ok_bind, hd, Stateful.ok_bind, FieldDef.checkValue_parts hvalue,
    Stateful.ok_bind]
  cases value <;> rfl

theorem integrity_withValue (hg : Integrity schema G.records) (hne : type ≠ Id.nil) :
    Integrity schema (G.withValue a field (value.map Value.encode)).records := by
  rw [records_withValue]
  cases value with
  | none =>
    apply hg.erase (Records.erases_update _ _)
    · intro b hb
      exact absurd (Key.bytes_injective hb) (by simp)
    · intro e
      simp only [Key.bytes_inj, reduceCtorEq]
  | some v =>
    obtain ⟨hfield, hscalar⟩ := Schema.scalarOn_eq_ok hd
    have hkind : G.records.HasType a type := by
      refine ⟨?_, hne⟩
      rw [records, htype]
      rfl
    exact hg.setValue hkind hfield hscalar (List.cons_ne_nil _ _) (Value.decode_encode v) (hvalue v rfl)

end Value

def withParts (a : Id) (parts : List (Id × Option Value)) (G : Graph) : Graph :=
  parts.foldl (fun G p => G.withValue a p.1 (p.2.map Value.encode)) G

theorem withParts_spec {parts : List (Id × Option Value)} (hnodup : (parts.map Prod.fst).Nodup) :
    (G.withParts a parts).types = G.types ∧ (G.withParts a parts).edges = G.edges ∧
      (G.withParts a parts).values = update G.values a fun field =>
        ((parts.lookup field).map (Option.map Value.encode)).getD (G.values a field) := by
  induction parts generalizing G with
  | nil => exact ⟨rfl, rfl, (Function.update_eq_self a G.values).symm⟩
  | cons p parts ih =>
    obtain ⟨hnew, hnodup⟩ := List.nodup_cons.mp hnodup
    obtain ⟨htypes, hedges, hvalues⟩ := @ih (G.withValue a p.1 (p.2.map Value.encode)) hnodup
    refine ⟨htypes, hedges, hvalues.trans ?_⟩
    have hfirst : (G.withValue a p.1 (p.2.map Value.encode)).values =
      update G.values a (update (G.values a) p.1 (p.2.map Value.encode)) := rfl
    rw [hfirst, Function.update_idem, Function.update_self]
    congr 1
    funext field
    by_cases hfield : field = p.1
    · have hlater : parts.lookup p.1 = none := by
        rw [List.lookup_eq_none_iff]
        intro q hq
        rw [bne_iff_ne]
        intro heq
        exact hnew (heq ▸ List.mem_map_of_mem hq)
      rw [hfield, hlater, List.lookup_cons, beq_self_eq_true, Function.update_self]
      rfl
    · rw [List.lookup_cons, beq_false_of_ne hfield, Function.update_of_ne hfield]

def retyped (a type : Id) (G : Graph) : Graph :=
  if G.types a = some type then G else (G.without a).withObject a type

theorem types_retyped (a type : Id) (G : Graph) :
    (G.retyped a type).types = update G.types a (some type) := by
  rw [retyped]
  split
  next hsame => rw [← hsame, Function.update_eq_self]
  next => exact Function.update_idem _ _ _

theorem integrity_retyped (hg : Integrity schema G.records) (htype : (schema.type? type).isSome) (a : Id) :
    Integrity schema (G.retyped a type).records := by
  rw [retyped]
  split
  · exact hg
  · rw [records_withObject]
    apply (hg.delete (erases_without a)).create _ htype
    simp [records, without]

theorem values_retyped_of_ne {a b : Id} (h : b ≠ a) (type : Id) (G : Graph) :
    (G.retyped a type).values b = G.values b := by
  rw [retyped]
  split
  · rfl
  · exact Function.update_of_ne h _ _

theorem retyped_withParts (f : Id → Option Definition) (d : Definition) :
    ((ofDefinitions f).retyped d.id d.kind).withParts d.id d.parts = ofDefinitions (d.enter f) := by
  obtain ⟨htypes, hedges, hvalues⟩ :=
    @withParts_spec ((ofDefinitions f).retyped d.id d.kind) d.id _ d.nodup_parts
  -- what is no part of the definition is none of what it may have kept either
  have hrest : ∀ field, d.parts.lookup field = none →
      ((ofDefinitions f).retyped d.id d.kind).values d.id field = none := by
    intro field hfield
    rw [retyped]
    split
    next hsame =>
      obtain ⟨e, he, hkind⟩ := Option.map_eq_some_iff.mp hsame
      simp only [ofDefinitions, he, Option.bind_some, Definition.part_eq_none hkind.symm hfield,
        Option.map_none]
    next => simp only [withObject, without, Function.update_self]
  apply Graph.ext
  · rw [htypes, types_retyped]
    funext a
    by_cases ha : a = d.id
    · simp [ha, ofDefinitions, Definition.enter]
    · simp [ha, ofDefinitions, Definition.enter]
  · rw [hvalues]
    funext a
    by_cases ha : a = d.id
    · rw [ha, Function.update_self]
      funext field
      simp only [ofDefinitions, Definition.enter, Function.update_self, Option.bind_some, Definition.part]
      cases hfield : d.parts.lookup field with
      | some v => rfl
      | none => exact hrest field hfield
    · rw [Function.update_of_ne ha, values_retyped_of_ne ha]
      simp only [ofDefinitions, Definition.enter, Function.update_of_ne ha]
  · rw [hedges, retyped]
    split <;> rfl

end Graph

end ObjectGraph

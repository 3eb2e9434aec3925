import ObjectGraph.Proofs.Session.Definitions

namespace ObjectGraph

namespace Schema

variable {s : Schema} {a type : Id}

theorem isA_of_root (h : (s.type? type).bind TypeDef.parent = none) : s.isA type a ↔ type = a := by
  rw [isA]
  cases s.types.length with
  | zero => simp [reaches]
  | succ n => simp [reaches, h]

theorem isA_builtin {kind : Id} : builtin.isA type kind ↔ type = kind := by
  apply isA_of_root
  have hroots : ∀ p ∈ builtin.types, p.2.parent = none := by decide
  cases hd : builtin.type? type with
  | none => rfl
  | some d => exact hroots _ ((Dictionary.get?_eq_some_iff Lawful.builtin.types).mp hd)

theorem Lawful.mem_map_ownTypes (hs : s.Lawful) :
    a ∈ s.ownTypes.map TypeDef.id ↔ ∃ d, s.definition? a = some d ∧ d.kind = Builtin.typeDef := by
  have hne : Builtin.fieldDef ≠ Builtin.typeDef := by decide
  rw [List.mem_map]
  constructor
  · rintro ⟨d, hd, rfl⟩
    exact ⟨.type d, hs.mem_ownTypes.mp hd, rfl⟩
  · rintro ⟨d | d, hd, hkind⟩
    · obtain ⟨rfl, -⟩ := hs.id_eq hd
      exact ⟨d, hs.mem_ownTypes.mpr hd, rfl⟩
    · exact absurd hkind hne

theorem Lawful.mem_map_ownFields (hs : s.Lawful) :
    a ∈ s.ownFields.map FieldDef.id ↔ ∃ d, s.definition? a = some d ∧ d.kind = Builtin.fieldDef := by
  have hne : Builtin.typeDef ≠ Builtin.fieldDef := by decide
  rw [List.mem_map]
  constructor
  · rintro ⟨d, hd, rfl⟩
    exact ⟨.field d, hs.mem_ownFields.mp hd, rfl⟩
  · rintro ⟨d | d, hd, hkind⟩
    · exact absurd hkind hne
    · obtain ⟨rfl, -⟩ := hs.id_eq hd
      exact ⟨d, hs.mem_ownFields.mpr hd, rfl⟩

theorem Lawful.ownTypes_ascending (hs : s.Lawful) :
    (s.ownTypes.map TypeDef.id).Pairwise (compare · · = .lt) := by
  rw [List.pairwise_map]
  exact (Dictionary.ascending_values hs.types hs.type_id).sublist List.filter_sublist

theorem Lawful.ownFields_ascending (hs : s.Lawful) :
    (s.ownFields.map FieldDef.id).Pairwise (compare · · = .lt) := by
  rw [List.pairwise_map]
  exact (Dictionary.ascending_values hs.fields hs.field_id).sublist List.filter_sublist

theorem Lawful.nodup_own (hs : s.Lawful) : (s.own.map Definition.id).Nodup := by
  have hne {a b : Id} (h : compare a b = .lt) : a ≠ b := by
    rintro rfl
    rw [Std.ReflOrd.compare_self] at h
    contradiction
  rw [own, List.map_append, List.map_map, List.map_map, List.nodup_append]
  refine ⟨hs.ownTypes_ascending.imp hne, hs.ownFields_ascending.imp hne, ?_⟩
  rintro a ha _ hb rfl
  obtain ⟨d, hd, hkind⟩ := hs.mem_map_ownTypes.mp ha
  obtain ⟨e, he, hkind'⟩ := hs.mem_map_ownFields.mp hb
  cases hd.symm.trans he
  exact absurd (hkind.symm.trans hkind') (by decide)

end Schema

theorem Definition.part_of_mem {d : Definition} {p : Id × Option Value} (hp : p ∈ d.parts) :
    d.part p.1 = p.2 := by
  obtain ⟨field, v⟩ := p
  have hlookup {l : List (Id × Option Value)} (hnodup : (l.map Prod.fst).Nodup) (hp : (field, v) ∈ l) :
      l.lookup field = some v := by
    induction l with
    | nil => contradiction
    | cons q l ih =>
      obtain ⟨hnew, hnodup⟩ := List.nodup_cons.mp hnodup
      rcases List.mem_cons.mp hp with rfl | hp
      · rw [List.lookup_cons, beq_self_eq_true]
      · have hne : field ≠ q.1 := fun heq => hnew (heq ▸ List.mem_map_of_mem hp)
        rw [List.lookup_cons, beq_false_of_ne hne]
        exact ih hnodup hp
  rw [part, hlookup d.nodup_parts hp]
  rfl

structure Records.Defines (g : Records) (f : Id → Option Definition) : Prop where
  kind_iff : ∀ a, ∀ kind ∈ [Builtin.typeDef, Builtin.fieldDef],
    g (.object a) = some kind.bytes ↔ ∃ d, f a = some d ∧ d.kind = kind
  part_eq : ∀ a d, f a = some d → ∀ p ∈ d.parts, g (.field a p.1) = p.2.map Value.encode
  typed : ∀ a v, g (.object a) = some v → ∃ type : Id, v = type.bytes

theorem Graph.defines_ofDefinitions (f : Id → Option Definition) : (ofDefinitions f).records.Defines f where
  kind_iff a kind _ := by
    simp only [records, ofDefinitions, Option.map_map, Option.map_eq_some_iff]
    constructor
    · rintro ⟨d, hd, hkind⟩
      exact ⟨d, hd, Id.bytes_injective hkind⟩
    · rintro ⟨d, hd, rfl⟩
      exact ⟨d, hd, rfl⟩
  part_eq a d hd p hp := by
    simp only [records, ofDefinitions, hd, Option.bind_some, Definition.part_of_mem hp]
  typed a v hv := by
    obtain ⟨type, -, rfl⟩ := Option.map_eq_some_iff.mp hv
    exact ⟨type, rfl⟩

namespace Session

variable {s : Session} {a field : Id}

theorem readText_eq {t : String} (h : s.part a field = .ok (some (.string t))) :
    s.readText a field = .ok t := by
  rw [readText, h]
  rfl

theorem readId?_eq {i : Option Id} (h : s.part a field = .ok (i.map .id)) (hnil : i ≠ some Id.nil) :
    s.readId? a field = .ok i := by
  rw [readId?, h]
  cases i with
  | none => rfl
  | some i =>
    have hne : i ≠ Id.nil := fun heq => hnil (congrArg some heq)
    simp only [Option.map_some, Stateful.ok_bind, if_neg hne]
    rfl

theorem readFlag_eq {b : Bool} (h : s.part a field = .ok (some (.boolean b))) :
    s.readFlag a field = .ok b := by
  rw [readFlag, h]
  rfl

theorem readDataType?_eq {type : DataType} (h : s.part a field = .ok (some (.enum type.tag.toUInt32))) :
    s.readDataType? a field = .ok (some type) := by
  rw [readDataType?, h]
  cases type <;> rfl

variable {c : Catalog} {base : Table} {g : Records} {f : Id → Option Definition} {d : Definition}

namespace Shows

variable (h : s.Shows c base g) (hg : g.Defines f) (hc : c.schema = Schema.builtin)

include h hg hc

theorem part_eq (hd : f a = some d) {p : Id × Option Value} (hp : p ∈ d.parts) : s.part a p.1 = .ok p.2 := by
  obtain ⟨x, hx, -⟩ := Schema.Lawful.builtin.scalarOn_part hp
  have htype : s.type? a = .ok (some d.kind) := by
    rw [type?, h.get?_eq, (hg.kind_iff a _ d.kind_mem).mpr ⟨d, hd, rfl⟩]
    simp [recordedType, Id.ofBytes?_bytes, bind, Except.bind, pure, Except.pure, d.kind_ne_nil]
  have hvalue : s.value a p.1 = .ok ((p.2.map Value.encode).getD []) := by
    rw [value, htype, Stateful.ok_bind]
    dsimp only
    rw [h.scalarField_eq, hc, hx, Stateful.ok_bind, h.get?_eq, hg.part_eq a d hd p hp]
    rfl
  have hdecode : Value.decode ((p.2.map Value.encode).getD []) = .ok p.2 := by
    cases p.2 with
    | none => rfl
    | some v => exact Value.decode_encode v
  rw [part, hvalue, Stateful.ok_bind, hdecode]
  rfl

theorem readType_eq {d : TypeDef} (hd : f d.id = some (.type d))
    (hnil : Id.nil ∉ (Definition.type d).references) : s.readType d.id = .ok d := by
  have hpart {p : Id × Option Value} (hp : p ∈ (Definition.type d).parts) : s.part d.id p.1 = .ok p.2 :=
    h.part_eq hg hc hd hp
  have hname := hpart (p := (Builtin.typeName, some (.string d.name))) (by simp [Definition.parts])
  have hparent := hpart (p := (Builtin.typeParent, d.parent.map .id)) (by simp [Definition.parts])
  have hne : d.parent ≠ some Id.nil := fun heq => hnil (Option.mem_toList.mpr heq)
  rw [readType, readText_eq hname, Stateful.ok_bind, readId?_eq hparent hne]
  rfl

theorem readField_eq {d : FieldDef} (hd : f d.id = some (.field d))
    (hnil : Id.nil ∉ (Definition.field d).references) : s.readField d.id = .ok d := by
  have hpart {p : Id × Option Value} (hp : p ∈ (Definition.field d).parts) : s.part d.id p.1 = .ok p.2 :=
    h.part_eq hg hc hd hp
  have hname := hpart (p := (Builtin.fieldName, some (.string d.name))) (by simp [Definition.parts])
  have howner := hpart (p := (Builtin.fieldOwner, (some d.owner).map .id)) (by simp [Definition.parts])
  have htype := hpart (p := (Builtin.fieldType, some (.enum d.type.tag.toUInt32))) (by simp [Definition.parts])
  have hindexed := hpart (p := (Builtin.fieldIndexed, some (.boolean d.indexed))) (by simp [Definition.parts])
  have hother := hpart (p := (Builtin.fieldOther, (d.pairing.map Pairing.other).map .id))
    (by simp [Definition.parts, Function.comp_def])
  have hmulti := hpart (p := (Builtin.fieldMulti, d.pairing.map fun p => .boolean p.multi))
    (by simp [Definition.parts])
  rw [Definition.references, List.mem_cons, Option.mem_toList, not_or] at hnil
  have hne : some d.owner ≠ some Id.nil := fun heq => hnil.1 (Option.some.inj heq).symm
  have hpairing : s.readPairing d.id = .ok d.pairing := by
    rw [readPairing, readId?_eq hother hnil.2]
    cases hp : d.pairing with
    | none => rfl
    | some p =>
      rw [hp] at hmulti
      rw [Option.map_some, Stateful.ok_bind]
      dsimp only
      rw [readFlag_eq hmulti]
      rfl
  rw [readField, readText_eq hname, Stateful.ok_bind, readId?_eq howner hne, Stateful.ok_bind]
  dsimp only
  rw [readDataType?_eq htype, Stateful.ok_bind]
  dsimp only
  rw [readFlag_eq hindexed, Stateful.ok_bind, hpairing]
  rfl

theorem objects_eq_definitions {kind : Id} (hkind : kind ∈ [Builtin.typeDef, Builtin.fieldDef]) {l : List Id}
    (hl : l.Pairwise (compare · · = .lt)) (hmem : ∀ a, a ∈ l ↔ ∃ d, f a = some d ∧ d.kind = kind) :
    s.objects kind = .ok l := by
  have hknown : ∀ a ∈ [Builtin.typeDef, Builtin.fieldDef], (Schema.builtin.type? a).isNone = false := by decide
  have hrecord (a type : Id) : (a.bytes, type.bytes) ∈ s.workspace.view ↔ g (.object a) = some type.bytes := by
    rw [← h.records_eq]
    exact (recorded_eq_some_iff h.valid.ascending_view (k := .object a)).symm
  have htyped : ∀ (a : Id) v, (a.bytes, v) ∈ s.workspace.view → ∃ t : Id, v = t.bytes := by
    intro a v hv
    apply hg.typed a
    rw [← h.records_eq]
    exact (recorded_eq_some_iff h.valid.ascending_view (k := .object a)).mpr hv
  obtain ⟨ids, hids, hascending, hlisted⟩ := objectsAmong_spec Schema.builtin kind h.valid.ascending_view
    h.keyed htyped
  have hsame : ids = l := by
    refine (Id.eq_sort hascending fun a => ?_).trans (Id.eq_sort hl fun a => List.mem_toFinset.symm).symm
    rw [List.mem_toFinset, hlisted, hmem, ← hg.kind_iff a kind hkind, ← hrecord]
    simp only [Schema.isA_builtin, exists_eq_right]
  rw [objects, h.catalog_eq, hc, hknown kind hkind, h.valid.entries_eq, hids, hsame]
  rfl

end Shows

theorem Shows.storedSchema_eq {t : Schema} (h : s.Shows c base g) (hg : g.Defines t.definition?)
    (hc : c.schema = Schema.builtin) (ht : t.Lawful) (hproper : t.Proper) :
    s.storedSchema = t.validate.map fun _ => t := by
  have htypes : s.objects Builtin.typeDef = .ok (t.ownTypes.map TypeDef.id) :=
    h.objects_eq_definitions hg hc (by simp) ht.ownTypes_ascending fun _ => ht.mem_map_ownTypes
  have hfields : s.objects Builtin.fieldDef = .ok (t.ownFields.map FieldDef.id) :=
    h.objects_eq_definitions hg hc (by simp) ht.ownFields_ascending fun _ => ht.mem_map_ownFields
  have hreadTypes : (t.ownTypes.map TypeDef.id).mapM s.readType = .ok t.ownTypes := by
    apply Stateful.mapM_eq_ok
    rw [List.map_map]
    apply List.map_congr_left
    intro d hd
    have hdefined := ht.mem_ownTypes.mp hd
    exact h.readType_eq hg hc hdefined (hproper _ _ hdefined)
  have hreadFields : (t.ownFields.map FieldDef.id).mapM s.readField = .ok t.ownFields := by
    apply Stateful.mapM_eq_ok
    rw [List.map_map]
    apply List.map_congr_left
    intro d hd
    have hdefined := ht.mem_ownFields.mp hd
    exact h.readField_eq hg hc hdefined (hproper _ _ hdefined)
  rw [storedSchema, htypes, Stateful.ok_bind, hreadTypes, Stateful.ok_bind, hfields, Stateful.ok_bind,
    hreadFields, Stateful.ok_bind, ht.foldl_own]
  dsimp only
  cases t.validate <;> rfl

end Session

end ObjectGraph

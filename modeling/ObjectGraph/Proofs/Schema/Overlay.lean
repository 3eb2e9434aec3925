import ObjectGraph.Proofs.Schema.Construction

namespace ObjectGraph

open Function (update)

def Definition.enter (f : Id → Option Definition) (d : Definition) : Id → Option Definition :=
  update f d.id (some d)

theorem Definition.foldl_enter {l : List Definition} {f : Id → Option Definition}
    (hl : ∀ d ∈ l, ∀ e ∈ l, d.id = e.id → d = e) (a : Id) :
    l.foldl enter f a = (l.find? (·.id = a)).or (f a) := by
  induction l generalizing f with
  | nil => rfl
  | cons d l ih =>
    rw [List.foldl_cons, ih fun x hx y hy => hl x (.tail d hx) y (.tail d hy), List.find?_cons]
    by_cases ha : d.id = a
    · rw [← ha, enter, Function.update_self]
      cases hfind : l.find? (·.id = d.id) with
      | none => simp
      | some e =>
        have he : e.id = d.id := by simpa using List.find?_some hfind
        simp [hl e (.tail d (List.mem_of_find?_eq_some hfind)) d List.mem_cons_self he]
    · rw [enter, Function.update_of_ne (Ne.symm ha)]
      simp [ha]

namespace Schema

variable {s t : Schema} {a : Id} {l : List Definition}

def overlay (s t : Schema) : Schema := t.own.foldl put s

def identifiers (s : Schema) : List Id := s.own.map Definition.id

def Proper (s : Schema) : Prop := ∀ a d, s.definition? a = some d → Id.nil ∉ d.references

namespace Lawful

theorem foldl_put (hs : s.Lawful) (hl : ∀ d ∈ l, ¬ Builtin.IsReserved d.id) :
    (l.foldl Schema.put s).Lawful ∧
      (l.foldl Schema.put s).definition? = l.foldl Definition.enter s.definition? := by
  induction l generalizing s with
  | nil => exact ⟨hs, rfl⟩
  | cons d l ih =>
    obtain ⟨hd, hl⟩ := List.forall_mem_cons.mp hl
    rw [List.foldl_cons, List.foldl_cons, Definition.enter, ← hs.definition?_put hd]
    exact ih (hs.put hd) hl

theorem free_own (hs : s.Lawful) : ∀ d ∈ s.own, ¬ Builtin.IsReserved d.id :=
  fun _ hd => (hs.id_eq (hs.mem_own.mp hd)).2

theorem own_injective (hs : s.Lawful) : ∀ d ∈ s.own, ∀ e ∈ s.own, d.id = e.id → d = e := by
  intro d hd e he heq
  rw [hs.mem_own] at hd he
  rw [heq, he] at hd
  exact (Option.some.inj hd).symm

theorem find?_own (hs : s.Lawful) (a : Id) : s.own.find? (·.id = a) = s.definition? a := by
  cases hd : s.definition? a with
  | none =>
    rw [List.find?_eq_none]
    intro d hmem
    rw [decide_eq_true_iff]
    rintro rfl
    rw [hs.mem_own.mp hmem] at hd
    contradiction
  | some d =>
    obtain ⟨rfl, -⟩ := hs.id_eq hd
    have hfound : (s.own.find? (·.id = d.id)).isSome :=
      List.find?_isSome.mpr ⟨d, hs.mem_own.mpr hd, by simp⟩
    obtain ⟨e, he⟩ := Option.isSome_iff_exists.mp hfound
    have hid : e.id = d.id := by simpa using List.find?_some he
    have hown := hs.mem_own.mp (List.mem_of_find?_eq_some he)
    rw [he, ← hown, hid, hd]

theorem mem_identifiers (hs : s.Lawful) {a : Id} : a ∈ s.identifiers ↔ (s.definition? a).isSome := by
  rw [identifiers, List.mem_map, Option.isSome_iff_exists]
  constructor
  · rintro ⟨d, hd, rfl⟩
    exact ⟨d, hs.mem_own.mp hd⟩
  · rintro ⟨d, hd⟩
    obtain ⟨rfl, -⟩ := hs.id_eq hd
    exact ⟨d, hs.mem_own.mpr hd, rfl⟩

theorem overlay (hs : s.Lawful) (ht : t.Lawful) : (s.overlay t).Lawful :=
  (hs.foldl_put ht.free_own).1

theorem definition?_overlay (hs : s.Lawful) (ht : t.Lawful) (a : Id) :
    (s.overlay t).definition? a = (t.definition? a).or (s.definition? a) := by
  rw [Schema.overlay, (hs.foldl_put ht.free_own).2, Definition.foldl_enter ht.own_injective,
    ht.find?_own]

theorem identifiers_foldl_overlay {later : List Schema} (hs : s.Lawful) (hlater : ∀ t ∈ later, t.Lawful)
    {a : Id} : a ∈ (later.foldl Schema.overlay s).identifiers ↔
      a ∈ s.identifiers ∨ ∃ t ∈ later, a ∈ t.identifiers := by
  induction later generalizing s with
  | nil => simp
  | cons t later ih =>
    obtain ⟨ht, hlater⟩ := List.forall_mem_cons.mp hlater
    have hboth : a ∈ (s.overlay t).identifiers ↔ a ∈ t.identifiers ∨ a ∈ s.identifiers := by
      rw [(hs.overlay ht).mem_identifiers, hs.definition?_overlay ht, Option.isSome_or, Bool.or_eq_true,
        ← ht.mem_identifiers, ← hs.mem_identifiers]
    rw [List.foldl_cons, ih (hs.overlay ht) hlater, hboth, or_comm (a := a ∈ t.identifiers), or_assoc]
    simp only [List.mem_cons, exists_eq_or_imp]

theorem overlay_eq_right (hs : s.Lawful) (ht : t.Lawful) (h : s.identifiers ⊆ t.identifiers) :
    s.overlay t = t := by
  apply (hs.overlay ht).ext ht
  intro a
  rw [hs.definition?_overlay ht]
  cases hd : t.definition? a with
  | some d => rfl
  | none =>
    have hnone : ¬ (s.definition? a).isSome := by
      rw [← hs.mem_identifiers]
      intro ha
      have hsome := ht.mem_identifiers.mp (h ha)
      rw [hd] at hsome
      contradiction
    simpa using hnone

end Lawful

theorem definition?_builtin (a : Id) : builtin.definition? a = none := by
  have hown : builtin.own = [] := rfl
  rw [← Lawful.builtin.find?_own, hown, List.find?_nil]

theorem lawful_overlays {schemas : List Schema} (h : ∀ t ∈ schemas, t.Lawful) :
    (schemas.foldl overlay builtin).Lawful :=
  List.foldlRecOn schemas overlay .builtin fun _ hs t ht => hs.overlay (h t ht)

theorem identifiers_overlays {schemas : List Schema} (h : ∀ t ∈ schemas, t.Lawful) :
    a ∈ (schemas.foldl overlay builtin).identifiers ↔ ∃ t ∈ schemas, a ∈ t.identifiers := by
  rw [Lawful.builtin.identifiers_foldl_overlay h, or_iff_right]
  rw [Lawful.builtin.mem_identifiers, definition?_builtin]
  nofun

theorem foldl_put_type {l : List TypeDef} (h : ∀ d ∈ l, s.field? d.id = none) :
    (l.map Definition.type).foldl put s = l.foldl withType s := by
  induction l generalizing s with
  | nil => rfl
  | cons d l ih =>
    obtain ⟨hd, hl⟩ := List.forall_mem_cons.mp h
    rw [List.map_cons, List.foldl_cons, List.foldl_cons, put_type hd]
    exact ih hl

theorem foldl_put_field {l : List FieldDef} (h : ∀ d ∈ l, s.type? d.id = none) :
    (l.map Definition.field).foldl put s = l.foldl withField s := by
  induction l generalizing s with
  | nil => rfl
  | cons d l ih =>
    obtain ⟨hd, hl⟩ := List.forall_mem_cons.mp h
    rw [List.map_cons, List.foldl_cons, List.foldl_cons, put_field hd]
    exact ih hl

theorem Lawful.foldl_own (hs : s.Lawful) :
    s.ownFields.foldl withField (s.ownTypes.foldl withType Schema.builtin) = s := by
  have hfree : ∀ d ∈ s.ownTypes.map Definition.type, ¬ Builtin.IsReserved d.id :=
    fun d hd => hs.free_own d (List.mem_append_left _ hd)
  have htypes : (s.ownTypes.map .type).foldl Schema.put Schema.builtin =
      s.ownTypes.foldl withType Schema.builtin := by
    apply foldl_put_type
    intro d hd
    exact ((definition?_eq_none (hfree _ (List.mem_map_of_mem hd))).mp (definition?_builtin _)).2
  have hfields : ∀ d ∈ s.ownFields,
      ((s.ownTypes.map .type).foldl Schema.put Schema.builtin).type? d.id = none := by
    intro d hd
    have hfield := hs.mem_ownFields.mp hd
    have hnone : (s.ownTypes.map Definition.type).find? (·.id = d.id) = none := by
      rw [List.find?_eq_none]
      intro e he
      obtain ⟨x, hx, rfl⟩ := List.mem_map.mp he
      rw [decide_eq_true_iff]
      intro hid
      change x.id = d.id at hid
      rw [hs.mem_ownTypes, hid, hfield] at hx
      cases hx
    have hlater := congrFun (Lawful.builtin.foldl_put hfree).2 d.id
    rw [Definition.foldl_enter, hnone, definition?_builtin] at hlater
    · exact ((definition?_eq_none (hs.id_eq hfield).2).mp hlater).1
    · intro x hx y hy
      exact hs.own_injective x (List.mem_append_left _ hx) y (List.mem_append_left _ hy)
  rw [← htypes, ← foldl_put_field hfields, ← List.foldl_append]
  apply Lawful.overlay_eq_right .builtin hs
  intro a ha
  rw [Lawful.builtin.mem_identifiers, definition?_builtin] at ha
  contradiction

theorem Proper.overlay (hs : s.Lawful) (ht : t.Lawful) (hproper : s.Proper) (hproper' : t.Proper) :
    (s.overlay t).Proper := by
  intro a d hd
  rw [hs.definition?_overlay ht, Option.or_eq_some_iff] at hd
  rcases hd with hd | ⟨-, hd⟩
  · exact hproper' a d hd
  · exact hproper a d hd

theorem Built.owner_ne_nil (h : s.Built) {d : FieldDef} (hd : s.field? a = some d) : d.owner ≠ Id.nil := by
  induction h with
  | builtin =>
    have hall : ∀ p ∈ Schema.builtin.fields, p.2.owner ≠ Id.nil := by decide
    exact hall _ ((Dictionary.get?_eq_some_iff Lawful.builtin.fields).mp hd)
  | addType _ hadd ih =>
    obtain ⟨-, rfl⟩ := addType_eq_ok hadd
    exact ih hd
  | addField hbuilt hadd ih =>
    obtain ⟨-, howner, -, rfl⟩ := addField_eq_ok hadd
    rw [field?_withField hbuilt.lawful.fields] at hd
    split at hd
    · cases hd
      intro hnil
      rw [hnil, hbuilt.type?_nil] at howner
      contradiction
    · exact ih hd

theorem Built.proper (h : s.Built) (hvalid : s.validate = .ok ⟨⟩) : s.Proper := by
  obtain ⟨⟨⟩, htypes, hfields⟩ := Stateful.bind_eq_ok.mp hvalid
  rw [Stateful.forM_eq_ok] at htypes hfields
  intro a d hd hnil
  cases d with
  | type d =>
    have hmem := (Dictionary.get?_eq_some_iff h.lawful.types).mp (definition?_eq_type.mp hd).1
    have hancestry := htypes _ hmem
    rw [Definition.references, Option.mem_toList] at hnil
    simp only [show d.parent = some Id.nil from hnil] at hancestry
    rw [checkAncestry, h.type?_nil] at hancestry
    contradiction
  | field d =>
    obtain ⟨hd, -⟩ := h.lawful.definition?_eq_field.mp hd
    have hpairing := hfields _ ((Dictionary.get?_eq_some_iff h.lawful.fields).mp hd)
    rw [Definition.references, List.mem_cons, Option.mem_toList, Option.map_eq_some_iff] at hnil
    rcases hnil with hnil | ⟨p, hp, hnil⟩
    · exact h.owner_ne_nil hd hnil.symm
    · simp only [checkPairing, hp, hnil, h.lawful.field?_nil] at hpairing
      contradiction

end Schema

end ObjectGraph

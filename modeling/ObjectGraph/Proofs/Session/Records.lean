import ObjectGraph.Proofs.Graph.Integrity
import ObjectGraph.Proofs.KeyOrder
import ObjectGraph.Proofs.Stateful
import ObjectGraph.Proofs.Workspace.View
import ObjectGraph.Session.Links

namespace ObjectGraph

open Dictionary (Ascending)
open Function (update)
open Stateful (Triple)

def recorded (d : List Entry) : Records := fun k => Dictionary.get? KeyOrder.lexicographic k.bytes d

def Keyed (d : List Entry) : Prop := ∀ e ∈ d, ∃ k : Key, e.1 = k.bytes

section Recorded

variable {d : List Entry}

theorem recorded_eq_some_iff (hd : Ascending KeyOrder.lexicographic d) {k : Key} {v : Bytes} :
    recorded d k = some v ↔ (k.bytes, v) ∈ d := Dictionary.get?_eq_some_iff hd

theorem isSome_recorded_iff (hd : Ascending KeyOrder.lexicographic d) {k : Key} :
    (recorded d k).isSome ↔ ∃ e ∈ d, e.1 = k.bytes := by
  rw [Option.isSome_iff_exists]
  constructor
  · rintro ⟨v, hv⟩
    exact ⟨_, (recorded_eq_some_iff hd).mp hv, rfl⟩
  · rintro ⟨⟨_, v⟩, he, rfl⟩
    exact ⟨v, (recorded_eq_some_iff hd).mpr he⟩

theorem recorded_insert (hd : Ascending KeyOrder.lexicographic d) (k : Key) (v : Bytes) :
    recorded (Dictionary.insert KeyOrder.lexicographic k.bytes v d) =
      update (recorded d) k (some v) := by
  funext j
  rw [recorded, Dictionary.get?, Dictionary.find?_insert hd]
  by_cases hjk : j = k
  · rw [hjk, if_pos (KeyOrder.lexicographic_eq_iff.mpr rfl), Function.update_self]
    rfl
  · rw [Function.update_of_ne hjk, if_neg]
    · rfl
    · rwa [KeyOrder.lexicographic_eq_iff, Key.bytes_inj]

theorem erases_recorded (hd : Ascending KeyOrder.lexicographic d) (bs : Bytes) :
    Records.Erases (fun k => k.bytes = bs) (recorded d)
      (recorded (Dictionary.erase KeyOrder.lexicographic bs d)) := by
  constructor
  · intro k hk
    rw [recorded, Dictionary.get?, Dictionary.find?_erase hd,
      if_pos (KeyOrder.lexicographic_eq_iff.mpr hk)]
    rfl
  · intro k hk
    rw [recorded, Dictionary.get?, Dictionary.find?_erase hd, if_neg]
    · rfl
    · rwa [KeyOrder.lexicographic_eq_iff]

theorem recorded_erase (hd : Ascending KeyOrder.lexicographic d) (k : Key) :
    recorded (Dictionary.erase KeyOrder.lexicographic k.bytes d) = update (recorded d) k none :=
  (erases_recorded hd k.bytes).unique (Records.erases_update _ k)

theorem recorded_apply (hd : Ascending KeyOrder.lexicographic d) {k : Key} {e : Entry}
    (hk : e.1 = k.bytes) : recorded (Staged.apply KeyOrder.lexicographic d e) =
      update (recorded d) k (Staged.payload? e.2) := by
  rw [Staged.apply, hk]
  cases Staged.payload? e.2 with
  | none => exact recorded_erase hd k
  | some v => exact recorded_insert hd k v

theorem Keyed.insert (h : Keyed d) (hd : Ascending KeyOrder.lexicographic d) (k : Key) (v : Bytes) :
    Keyed (Dictionary.insert KeyOrder.lexicographic k.bytes v d) := by
  intro e he
  rcases (Dictionary.mem_insert hd).mp he with rfl | ⟨he, -⟩
  · exact ⟨k, rfl⟩
  · exact h e he

theorem Keyed.erase (h : Keyed d) (bs : Bytes) :
    Keyed (Dictionary.erase KeyOrder.lexicographic bs d) :=
  fun e he => h e ((Dictionary.erase_sublist bs d).subset he)

end Recorded

structure Session.Shows (c : Catalog) (base : Table) (g : Records) (s : Session) : Prop where
  catalog_eq : s.catalog = c
  writable : s.writable = true
  base_eq : s.workspace.base = base
  valid : s.workspace.Valid KeyOrder.lexicographic
  keyed : Keyed s.workspace.view
  records_eq : recorded s.workspace.view = g

namespace Session

variable {c : Catalog} {base : Table} {g : Records} {s : Session}

theorem create_eq_ok {snapshot : Snapshot} {writable : Bool} (h : create c snapshot writable = .ok s) :
    ∃ capacity w recorders,
      Workspace.create (snapshot.table c.tables.objects) capacity c.config.pageSize = .ok w ∧
      (writable = true → Recorders.create c.config = .ok recorders) ∧
      s = ⟨c, writable, c.config.actor, snapshot, w, recorders⟩ := by
  obtain ⟨w, hw, h⟩ := Stateful.bind_eq_ok.mp h
  cases writable with
  | false =>
    cases h
    exact ⟨_, w, _, hw, nofun, rfl⟩
  | true =>
    obtain ⟨recorders, hrecorders, h⟩ := Stateful.bind_eq_ok.mp h
    cases h
    exact ⟨_, w, recorders, hw, fun _ => hrecorders, rfl⟩

theorem get?_eq_recorded (h : s.workspace.Valid KeyOrder.lexicographic) : s.get? = recorded s.workspace.view := by
  funext k
  rw [get?, h.get?_eq, recorded]

theorem Shows.get?_eq (h : s.Shows c base g) (k : Key) : s.get? k = g k := by
  rw [get?_eq_recorded h.valid, h.records_eq]

theorem Shows.contains_eq (h : s.Shows c base g) (k : Key) : s.contains k = (g k).isSome := by
  rw [← h.get?_eq k]
  rfl

theorem type?_eq_some_iff {a type : Id} : s.type? a = .ok (some type) ↔ Records.HasType s.get? a type := by
  constructor
  · intro ht
    rw [type?] at ht
    split at ht
    · cases ht
    next v hv =>
      obtain ⟨t, hread, ht⟩ := Stateful.bind_eq_ok.mp ht
      by_cases hnil : t = Id.nil
      · rw [if_pos hnil] at ht
        cases ht
      · rw [if_neg hnil] at ht
        cases ht
        rw [recordedType] at hread
        split at hread
        next ht' =>
          cases hread
          exact ⟨by rw [hv, Id.bytes_of_ofBytes? ht'], hnil⟩
        · contradiction
  · rintro ⟨hv, hne⟩
    rw [type?, hv]
    simp only [recordedType, Id.ofBytes?_bytes, Stateful.ok_bind, if_neg hne]
    rfl

theorem Shows.type?_eq_some (h : s.Shows c base g) {a type : Id} (ht : s.type? a = .ok (some type)) :
    g.HasType a type := by
  rw [← show s.get? = g from funext h.get?_eq]
  exact type?_eq_some_iff.mp ht

theorem Shows.type?_eq_none (h : s.Shows c base g) {a type : Id} (ht : s.type? a = .ok none) :
    ¬ g.HasType a type := by
  rw [← show s.get? = g from funext h.get?_eq, ← type?_eq_some_iff, ht]
  nofun

theorem Shows.typeOf_eq_ok (h : s.Shows c base g) {a type : Id} (ht : s.typeOf a = .ok type) :
    g.HasType a type := by
  rw [typeOf] at ht
  obtain ⟨found, hfound, ht⟩ := Stateful.bind_eq_ok.mp ht
  cases found with
  | none => contradiction
  | some t =>
    cases ht
    exact h.type?_eq_some hfound

theorem scalarField_eq_ok {type field : Id} {d : FieldDef} (hd : s.scalarField type field = .ok d) :
    s.catalog.schema.HasField type field d ∧ d.type.IsScalar := by
  rw [scalarField] at hd
  obtain ⟨d', hfield, hd⟩ := Stateful.bind_eq_ok.mp hd
  split at hd
  next hscalar =>
    cases hd
    exact ⟨Schema.hasField_of_fieldOn hfield, hscalar⟩
  · contradiction

theorem Shows.scalarField_eq_ok (h : s.Shows c base g) {type field : Id} {d : FieldDef}
    (hd : s.scalarField type field = .ok d) : c.schema.HasField type field d ∧ d.type.IsScalar := by
  rw [← h.catalog_eq]
  exact Session.scalarField_eq_ok hd

theorem Shows.pairing_eq_ok (h : s.Shows c base g) {type field : Id} {p : Pairing}
    (hp : s.pairing type field = .ok p) :
    ∃ d, c.schema.HasField type field d ∧ d.pairing = some p := by
  rw [pairing] at hp
  obtain ⟨d, hfield, hp⟩ := Stateful.bind_eq_ok.mp hp
  cases hpairing : d.pairing with
  | none =>
    rw [hpairing] at hp
    contradiction
  | some q =>
    rw [hpairing] at hp
    cases hp
    exact ⟨d, Schema.hasField_of_fieldOn (h.catalog_eq ▸ hfield), hpairing⟩

theorem Shows.mem_extending (h : s.Shows c base g) {start : Bytes} {e : Entry} :
    e ∈ s.workspace.extending start ↔ e ∈ s.workspace.view ∧ start <+: e.1 := h.valid.mem_extending

theorem Shows.mem_owned (h : s.Shows c base g) {a : Id} {bs : Bytes} :
    bs ∈ (s.workspace.extending a.bytes).map Prod.fst ↔
      ∃ k : Key, bs = k.bytes ∧ k.owner = a ∧ (g k).isSome := by
  rw [List.mem_map]
  constructor
  · rintro ⟨e, he, rfl⟩
    obtain ⟨he, hprefix⟩ := h.mem_extending.mp he
    obtain ⟨k, hk⟩ := h.keyed e he
    refine ⟨k, hk, ?_, ?_⟩
    · rw [hk] at hprefix
      exact Key.isPrefixOf_owner.mp (List.isPrefixOf_iff_prefix.mpr hprefix)
    · rw [← h.records_eq, isSome_recorded_iff h.valid.ascending_view]
      exact ⟨e, he, hk⟩
  · rintro ⟨k, rfl, howner, hk⟩
    rw [← h.records_eq, isSome_recorded_iff h.valid.ascending_view] at hk
    obtain ⟨e, he, hek⟩ := hk
    refine ⟨e, h.mem_extending.mpr ⟨he, ?_⟩, hek⟩
    rw [hek]
    exact List.isPrefixOf_iff_prefix.mp (Key.isPrefixOf_owner.mpr howner)

theorem Shows.mem_halves (h : s.Shows c base g) {a f : Id} {x : Half} :
    x ∈ s.halves a f ↔ x.object = a ∧ x.field = f ∧ (g (.association x)).isSome := by
  rw [halves, List.mem_filterMap]
  constructor
  · rintro ⟨e, he, hx⟩
    obtain ⟨he, hprefix⟩ := h.mem_extending.mp he
    obtain ⟨k, hk⟩ := h.keyed e he
    rw [hk, Key.ofBytes?_bytes] at hx
    cases k with
    | object b => contradiction
    | field b f' => contradiction
    | association y =>
      cases hx
      rw [hk, ← List.isPrefixOf_iff_prefix, Key.isPrefixOf_field] at hprefix
      rcases hprefix with hprefix | ⟨y, hy, hobject, hfield⟩
      · contradiction
      · cases hy
        refine ⟨hobject, hfield, ?_⟩
        rw [← h.records_eq, isSome_recorded_iff h.valid.ascending_view]
        exact ⟨e, he, hk⟩
  · rintro ⟨rfl, rfl, hx⟩
    rw [← h.records_eq, isSome_recorded_iff h.valid.ascending_view] at hx
    obtain ⟨e, he, hek⟩ := hx
    refine ⟨e, h.mem_extending.mpr ⟨he, ?_⟩, ?_⟩
    · rw [hek, ← List.isPrefixOf_iff_prefix, Key.isPrefixOf_field]
      exact .inr ⟨x, rfl, rfl, rfl⟩
    · rw [hek, Key.ofBytes?_bytes]

theorem Shows.withRecorders (h : s.Shows c base g) (recorders : Recorders) :
    Session.Shows c base g { s with recorders } :=
  ⟨h.catalog_eq, h.writable, h.base_eq, h.valid, h.keyed, h.records_eq⟩

theorem Shows.rollback (h : s.Shows c base g) (hkeyed : Keyed base.entries) :
    s.rollback.Shows c base (recorded base.entries) := by
  obtain ⟨hvalid, hview⟩ := h.valid.reset
  have hentries : s.rollback.workspace.view = base.entries := hview.trans (congrArg _ h.base_eq)
  exact ⟨h.catalog_eq, h.writable, h.base_eq, hvalid, hentries ▸ hkeyed, by rw [hentries]⟩

theorem Shows.rebase (h : s.Shows c base g) {base' : Table} {snapshot : Snapshot}
    (htable : snapshot.table c.tables.objects = base') (hvalid : base'.Valid KeyOrder.lexicographic)
    (hkeyed : Keyed base'.entries) :
    (s.rebase snapshot).Shows c base' (recorded base'.entries) := by
  obtain ⟨hreset, -⟩ := h.valid.reset
  have hview : (s.rebase snapshot).workspace.view = base'.entries := by
    rw [← htable, ← h.catalog_eq]
    rfl
  refine ⟨h.catalog_eq, h.writable, ?_, ?_, hview ▸ hkeyed, by rw [hview]⟩
  · rw [← htable, ← h.catalog_eq]
    rfl
  · rw [Session.rebase, h.catalog_eq, htable]
    exact hreset.refresh hvalid

end Session

end ObjectGraph

import ObjectGraph.Proofs.Database.Admission
import ObjectGraph.Proofs.Database.TextQueries
import ObjectGraph.Proofs.Search.ValueOrder

namespace ObjectGraph

theorem contributes_scalar_iff {raw content : Bytes} : Contributes raw .scalar content ↔
    content = raw ∧ ∃ v, Value.decode raw = .ok (some v) ∧ v.type ≠ .string := by
  constructor
  · rintro ⟨⟩
    exact ⟨rfl, _, ‹_›, ‹_›⟩
  · rintro ⟨rfl, v, hv, htype⟩
    exact .scalar hv htype

namespace Searcher

variable {q : Searcher} {d : FieldDef} {min max : Option Value}

theorem checkBound_eq_ok {bound : Option Value} (h : ∀ m ∈ bound, m.type = d.type) :
    bound.forM (checkBound d) = .ok ⟨⟩ := by
  cases bound with
  | none => rfl
  | some m => exact if_pos (h m rfl)

theorem derived_scalar_iff (hindexed : q.catalog.schema.isIndexed d.id) {o : Id} {content : Bytes} :
    q.Derived (IndexKey.encode .scalar d.id content o) ↔
      ((Key.field o d.id).bytes, content) ∈ (q.snapshot.table q.catalog.tables.objects).entries ∧
        ∃ v, Value.decode content = .ok (some v) ∧ v.type ≠ .string := by
  simp only [Searcher.Derived, derived_encode_iff, contributes_scalar_iff]
  constructor
  · rintro ⟨-, raw, hmem, rfl, hv⟩
    exact ⟨hmem, hv⟩
  · rintro ⟨hmem, hv⟩
    exact ⟨hindexed, content, hmem, rfl, hv⟩

theorem compare_gt_of_isLE {α : Type} [Ord α] [Std.TransOrd α] {x y z : α} (hxy : (compare x y).isLE)
    (hx : compare x z = .gt) : compare y z = .gt := by
  have hzx : compare z x = .lt := Std.OrientedCmp.lt_of_gt hx
  exact Std.OrientedCmp.gt_of_lt (Std.TransCmp.lt_of_lt_of_isLE hzx hxy)

theorem any_map_iff {α β : Type} {x : Option α} {f : α → β} {p : β → Bool} :
    (x.map f).any p ↔ ∃ a ∈ x, p (f a) := by
  cases x <;> simp

theorem scan_texts (h : (q.snapshot.table q.catalog.tables.search).Lists q.Derived)
    (hindexed : q.catalog.schema.isIndexed d.id) (least : String) (greatest : Option String) :
    Finds (q.scan .normal d.id (Utf8.encode least) fun found =>
      .ok (if (greatest.map Utf8.encode).any (compare found · = .gt) then .stop else .keep)) fun o =>
      ∃ s, q.Stores d.id o s ∧ (Value.string least).Le (.string s) ∧
        ∀ t ∈ greatest, (Value.string s).Le (.string t) := by
  have hvalue (x y : Bytes) := IndexRank.compare_value (v := .normal) (by decide) x y
  have hscan := @scan_until q q.Derived .normal d.id (Utf8.encode least) h nofun
    (fun found => ∃ t ∈ greatest, compare found (Utf8.encode t) = .gt)
    (fun found => (greatest.map Utf8.encode).any (compare found · = .gt))
  refine (hscan ?_ ?_).congr fun o => ?_
  · intro content o _
    simp only [any_map_iff, decide_eq_true_eq]
  · rintro x y hxy ⟨t, ht, hx⟩
    rw [hvalue] at hxy
    exact ⟨t, ht, compare_gt_of_isLE hxy hx⟩
  · simp only [derived_normal_iff hindexed, hvalue, not_exists, not_and, ← ne_eq,
      ← Ordering.isLE_iff_ne_gt]
    constructor
    · rintro ⟨_, ⟨s, hs, rfl⟩, hbounds⟩
      exact ⟨s, hs, hbounds⟩
    · rintro ⟨s, hs, hbounds⟩
      exact ⟨_, ⟨s, hs, rfl⟩, hbounds⟩

theorem scan_scalars (h : (q.snapshot.table q.catalog.tables.search).Lists q.Derived)
    (hindexed : q.catalog.schema.isIndexed d.id) :
    Finds (q.scan .scalar d.id ((min.map Value.encode).getD []) fun found =>
      .ok (if (max.map Value.encode).any (compareScalar found · = .gt) then .stop else .keep)) fun o =>
      ∃ content, q.Derived (IndexKey.encode .scalar d.id content o) ∧
        (∀ m ∈ min, (compare (IndexRank.scalar m.encode) (IndexRank.scalar content)).isLE) ∧
        ∀ m ∈ max, (compare (IndexRank.scalar content) (IndexRank.scalar m.encode)).isLE := by
  have hencode (m : Value) : IndexRank.Scalar m.encode :=
    Value.scalar_of_decode (Value.decode_encode m)
  have hstart : IndexRank.Scalar ((min.map Value.encode).getD []) := by
    cases min with
    | none => exact nofun
    | some m => exact hencode m
  have hvalue (bs : Bytes) : IndexRank.value Variant.scalar.tag bs = IndexRank.scalar bs := if_pos rfl
  have hscan := @scan_until q q.Derived .scalar d.id ((min.map Value.encode).getD []) h (fun _ => hstart)
    (fun found => ∃ m ∈ max, compare (IndexRank.scalar found) (IndexRank.scalar m.encode) = .gt)
    (fun found => (max.map Value.encode).any (compareScalar found · = .gt))
  refine (hscan ?_ ?_).congr fun o => exists_congr fun content => and_congr_right fun hkey => ?_
  · intro content o hkey
    obtain ⟨-, v, hv, -⟩ := (derived_scalar_iff hindexed).mp hkey
    simp only [any_map_iff, decide_eq_true_eq]
    refine exists_congr fun m => and_congr_right fun hm => ?_
    rw [IndexRank.compareScalar_eq (Value.scalar_of_decode hv) (hencode m)]
  · rintro x y hxy ⟨m, hm, hx⟩
    rw [hvalue, hvalue] at hxy
    exact ⟨m, hm, compare_gt_of_isLE hxy hx⟩
  · simp only [hvalue, not_exists, not_and, ← ne_eq, ← Ordering.isLE_iff_ne_gt]
    refine and_congr_left fun _ => ?_
    cases min with
    | none =>
      obtain ⟨-, v, hv, -⟩ := (derived_scalar_iff hindexed).mp hkey
      simp [IndexRank.isLE_nil_scalar]
    | some m => simp

def LiesBetween (q : Searcher) (field : Id) (min max : Option Value) (o : Id) : Prop :=
  ∃ raw v, ((Key.field o field).bytes, raw) ∈ (q.snapshot.table q.catalog.tables.objects).entries ∧
    Value.decode raw = .ok (some v) ∧ (∀ m ∈ min, m.Le v) ∧ (∀ m ∈ max, v.Le m) ∧
      (max = some (.boolean true) → raw = v.encode)

section Between

variable (h : (q.snapshot.table q.catalog.tables.search).Lists q.Derived)
  (hindexed : q.catalog.schema.isIndexed d.id)
  (hstored : ∀ o raw, ((Key.field o d.id).bytes, raw) ∈
    (q.snapshot.table q.catalog.tables.objects).entries →
      ∃ v, Value.decode raw = .ok (some v) ∧ v.type = d.type)
  (hmin : ∀ m ∈ min, m.type = d.type) (hmax : ∀ m ∈ max, m.type = d.type)

include h hindexed hstored hmin hmax

theorem between_texts_spec (htype : d.type = .string) :
    Finds (q.between d min max) (q.LiesBetween d.id min max) := by
  rw [between, checkBound_eq_ok hmin, checkBound_eq_ok hmax]
  simp only [bind, Except.bind]
  rw [if_pos htype]
  have htext : ∀ {v : Value}, v.type = d.type → ∃ s, v = .string s := by
    intro v hv
    rw [htype] at hv
    cases v <;> first | exact ⟨_, rfl⟩ | contradiction
  refine (scan_texts h hindexed ((min.bind Value.text?).getD "") (max.bind Value.text?)).congr fun o => ?_
  have hleast (s : String) : (Value.string ((min.bind Value.text?).getD "")).Le (.string s) ↔
      ∀ m ∈ min, m.Le (.string s) := by
    cases min with
    | none =>
      have hempty : (Value.string "").Le (.string s) := KeyOrder.isLE_of_prefix List.nil_prefix
      simpa using hempty
    | some m =>
      obtain ⟨t, rfl⟩ := htext (hmin m rfl)
      simp [Value.text?]
  have hgreatest (s : String) : (∀ t ∈ max.bind Value.text?, (Value.string s).Le (.string t)) ↔
      ∀ m ∈ max, (Value.string s).Le m := by
    cases max with
    | none => simp
    | some m =>
      obtain ⟨t, rfl⟩ := htext (hmax m rfl)
      simp [Value.text?]
  simp only [hleast, hgreatest]
  constructor
  · rintro ⟨s, ⟨raw, hmem, hs⟩, hbounds⟩
    refine ⟨raw, .string s, hmem, hs, hbounds.1, hbounds.2, ?_⟩
    rintro rfl
    obtain ⟨t, ht⟩ := htext (hmax _ rfl)
    contradiction
  · rintro ⟨raw, v, hmem, hv, hleast, hgreatest, -⟩
    obtain ⟨v', hv', htype'⟩ := hstored o raw hmem
    cases hv.symm.trans hv'
    obtain ⟨s, rfl⟩ := htext htype'
    exact ⟨s, ⟨raw, hmem, hv⟩, hleast, hgreatest⟩

theorem between_scalars_spec (htype : d.type ≠ .string) :
    Finds (q.between d min max) (q.LiesBetween d.id min max) := by
  rw [between, checkBound_eq_ok hmin, checkBound_eq_ok hmax]
  simp only [bind, Except.bind]
  rw [if_neg htype]
  have hscan := @scan_scalars q d min max h hindexed
  refine hscan.congr fun o => ?_
  simp only [derived_scalar_iff hindexed]
  have hbounds {raw : Bytes} {v : Value} (hv : Value.decode raw = .ok (some v)) (hvd : v.type = d.type) :
      ((∀ m ∈ min, (compare (IndexRank.scalar m.encode) (IndexRank.scalar raw)).isLE) ∧
        ∀ m ∈ max, (compare (IndexRank.scalar raw) (IndexRank.scalar m.encode)).isLE) ↔
      (∀ m ∈ min, m.Le v) ∧ (∀ m ∈ max, v.Le m) ∧ (max = some (.boolean true) → raw = v.encode) := by
    apply and_congr
    · refine forall_congr' fun m => forall_congr' fun hm => ?_
      exact IndexRank.isLE_of_encode_iff hv ((hmin m hm).trans hvd.symm) (hvd ▸ htype)
    · cases max with
      | none => simp
      | some m =>
        have hle := IndexRank.isLE_to_encode_iff hv (hvd.trans (hmax m rfl).symm) (hvd ▸ htype)
        simpa using hle
  constructor
  · rintro ⟨raw, ⟨hmem, -⟩, hlies⟩
    obtain ⟨v, hv, hvd⟩ := hstored o raw hmem
    exact ⟨raw, v, hmem, hv, (hbounds hv hvd).mp hlies⟩
  · rintro ⟨raw, v, hmem, hv, hlies⟩
    obtain ⟨v', hv', hvd⟩ := hstored o raw hmem
    cases hv.symm.trans hv'
    exact ⟨raw, ⟨hmem, v, hv, hvd ▸ htype⟩, (hbounds hv hvd).mpr hlies⟩

theorem between_spec : Finds (q.between d min max) (q.LiesBetween d.id min max) := by
  by_cases htype : d.type = .string
  · exact between_texts_spec h hindexed hstored hmin hmax htype
  · exact between_scalars_spec h hindexed hstored hmin hmax htype

end Between

end Searcher

variable {schema : Schema} {config : Config} {db : Database} {sessions : List Session} {d : FieldDef}

/-- Whatever bytes were stored as values, a range finds the objects whose value lies in it, provided that
values are written as one where the range ends with true. -/
theorem Interleaved.search_range (h : Interleaved schema config db sessions)
    (hsearch : config.search = true) (hfield : schema.field? d.id = some d) (hindexed : d.indexed = true)
    {min max : Option Value} (hmin : ∀ m ∈ min, m.type = d.type) (hmax : ∀ m ∈ max, m.type = d.type) :
    ∃ hits, db.search d.id (.range min max) = .ok hits ∧ hits.Pairwise (compare · · = .lt) ∧
      ∀ o, o ∈ hits ↔ ∃ raw v,
        ((Key.field o d.id).bytes, raw) ∈
          (db.store.committed.table db.catalog.tables.objects).entries ∧
        Value.decode raw = .ok (some v) ∧ (∀ m ∈ min, m.Le v) ∧ (∀ m ∈ max, v.Le m) ∧
          (max = some (.boolean true) → raw = v.encode) := by
  obtain ⟨hdb, -⟩ := h.inStep hsearch
  obtain ⟨objects, search, hin⟩ := hdb.indexed
  obtain ⟨objects', hobjects', -, hadmitted⟩ := h.orderly.1.objects
  cases hin.objects_eq.symm.trans hobjects'
  let q : Searcher := ⟨db.store.committed, db.catalog⟩
  have hobjects : q.snapshot.table q.catalog.tables.objects = objects := Snapshot.table_eq hin.objects_eq
  have htable : q.snapshot.table q.catalog.tables.search = search := Snapshot.table_eq hin.search_eq
  have hlists : (q.snapshot.table q.catalog.tables.search).Lists q.Derived := by
    rw [htable, Searcher.Derived, hobjects]
    exact hin.lists
  have hfield' : q.catalog.indexedField d.id = .ok d := by
    rw [Catalog.indexedField, hdb.schema_eq, hfield]
    exact if_pos hindexed
  have hstored : ∀ o raw, ((Key.field o d.id).bytes, raw) ∈
      (q.snapshot.table q.catalog.tables.objects).entries →
        ∃ v, Value.decode raw = .ok (some v) ∧ v.type = d.type := by
    intro o raw hmem
    rw [hobjects] at hmem
    obtain ⟨d', v, hd', -, hv, htype⟩ := hadmitted.of_mem hmem
    cases hfield.symm.trans hd'
    exact ⟨v, hv, htype⟩
  have hbetween := Searcher.between_spec hlists (Rebuild.isIndexed_of_indexedField hfield') hstored hmin hmax
  have hfind : db.search d.id (.range min max) = q.between d min max := by
    have htextual : ¬ ((Criterion.range min max).IsTextual ∧ d.type ≠ .string) := by
      rintro ⟨htextual, -⟩
      exact htextual
    rw [Database.search, Searcher.find, hfield']
    simp only [bind, Except.bind, if_neg htextual]
    rfl
  rw [hfind]
  exact hbetween

def Schema.gauges : Schema :=
  ((builtin.withType { id := Id.ofNat 0x1000, name := "gauge" }).withField
    { id := Id.ofNat 0x1001, name := "level", owner := Id.ofNat 0x1000, type := .integer,
      indexed := true }).withField
    { id := Id.ofNat 0x1002, name := "open", owner := Id.ofNat 0x1000, type := .boolean, indexed := true }

def SessionStep.gauges : List SessionStep :=
  let set (object field : Nat) (raw : Bytes) : SessionStep :=
    .called 0 (.edit (.setValue (Id.ofNat object) (Id.ofNat field) raw))
  [.opened, .called 0 (.edit (.create (Id.ofNat 0x1000) (Id.ofNat 1))),
    .called 0 (.edit (.create (Id.ofNat 0x1000) (Id.ofNat 2))), set 1 0x1001 (Value.integer (-3)).encode,
    set 2 0x1001 (Value.integer 5).encode, set 1 0x1002 [5, 2], set 2 0x1002 (Value.boolean true).encode,
    .called 0 (.commit ⟨0, 0⟩)]

theorem Interleaved.search_range_gauges :
    ∃ db sessions, Interleaved Schema.gauges {} db sessions ∧
      db.search (Id.ofNat 0x1001) (.range (some (.integer (-4))) (some (.integer 0))) = .ok [Id.ofNat 1] ∧
      ∀ o, o ∈ [Id.ofNat 1] ↔ ∃ raw v, ((Key.field o (Id.ofNat 0x1001)).bytes, raw) ∈
          (db.store.committed.table db.catalog.tables.objects).entries ∧
        Value.decode raw = .ok (some v) ∧ (Value.integer (-4)).Le v ∧ v.Le (.integer 0) := by
  have hscript : ((SessionStep.script Schema.gauges 10000 SessionStep.gauges).toOption.map fun state =>
      (state.1.search (Id.ofNat 0x1001)
        (.range (some (.integer (-4))) (some (.integer 0)))).toOption) =
      some (some [Id.ofNat 1]) := by decide +kernel
  obtain ⟨⟨db, sessions⟩, hstate, hhits⟩ := Option.map_eq_some_iff.mp hscript
  have hreached := Interleaved.of_script (Stateful.ok_of_toOption hstate)
  have hfield : (Schema.gauges.field? (Id.ofNat 0x1001)).isSome ∧
      ∀ d ∈ Schema.gauges.field? (Id.ofNat 0x1001),
        d.id = Id.ofNat 0x1001 ∧ d.indexed = true ∧ d.type = .integer := by decide +kernel
  obtain ⟨d, hd⟩ := Option.isSome_iff_exists.mp hfield.1
  obtain ⟨hid, hindexed, htype⟩ := hfield.2 d hd
  have hbound : ∀ {n : Int64} {m : Value}, m ∈ some (Value.integer n) → m.type = d.type := by
    rintro n _ ⟨⟩
    exact htype.symm
  obtain ⟨hits, hsearch, -, hmem⟩ := hreached.search_range rfl (hid ▸ hd) hindexed
    (fun _ hm => hbound hm) fun _ hm => hbound hm
  rw [hid] at hsearch hmem
  cases hsearch.symm.trans (Stateful.ok_of_toOption hhits)
  refine ⟨db, sessions, hreached, hsearch, fun o => ?_⟩
  simpa using hmem o

/-- An open gauge that a search for the open ones misses. -/
theorem Interleaved.search_range_misses :
    ∃ db sessions, Interleaved Schema.gauges {} db sessions ∧
      db.search (Id.ofNat 0x1002) (.range (some (.boolean true)) (some (.boolean true))) =
        .ok [Id.ofNat 2] ∧
      (db.store.committed.table db.catalog.tables.objects).get?
        (Key.field (Id.ofNat 1) (Id.ofNat 0x1002)).bytes = some [5, 2] ∧
      Value.decode [5, 2] = .ok (some (.boolean true)) := by
  have hscript : ((SessionStep.script Schema.gauges 10000 SessionStep.gauges).toOption.map fun state =>
      ((state.1.search (Id.ofNat 0x1002)
        (.range (some (.boolean true)) (some (.boolean true)))).toOption,
        (state.1.store.committed.table state.1.catalog.tables.objects).get?
          (Key.field (Id.ofNat 1) (Id.ofNat 0x1002)).bytes)) =
      some (some [Id.ofNat 2], some [5, 2]) := by decide +kernel
  obtain ⟨⟨db, sessions⟩, hstate, hresults⟩ := Option.map_eq_some_iff.mp hscript
  obtain ⟨hhits, hstored⟩ := Prod.mk.inj hresults
  exact ⟨db, sessions, .of_script (Stateful.ok_of_toOption hstate), Stateful.ok_of_toOption hhits, hstored,
    rfl⟩

end ObjectGraph

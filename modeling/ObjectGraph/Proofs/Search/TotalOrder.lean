import ObjectGraph.Proofs.Search.ValueOrder

namespace ObjectGraph

open IndexRank (Scalar Sized)

def DataType.IsNumeric : DataType → Prop
  | integer | decimal | datetime | enum => True
  | string | boolean | id | association => False

inductive ScalarLe : Bytes → Bytes → Prop where
  | empty (b : Bytes) : ScalarLe [] b
  | tag {s t : UInt8} {a b : Bytes} : s < t → ScalarLe (s :: a) (t :: b)
  | number {a b : Bytes} {v w : Value} : Value.decode a = .ok (some v) → Value.decode b = .ok (some w) →
      v.type = w.type → v.type.IsNumeric → v.Le w → ScalarLe a b
  | bytes {s : UInt8} {a b : Bytes} : (∀ type, DataType.ofTag? s = some type → ¬ type.IsNumeric) →
      (compare a b).isLE → ScalarLe (s :: a) (s :: b)

def IndexedLe (variant : UInt8) (a b : Bytes) : Prop :=
  if variant = Variant.scalar.tag then ScalarLe a b else (compare a b).isLE

namespace IndexKey

/-- By variant, field, value and object, each of them only where those before it are equal. -/
def Le (j k : IndexKey) : Prop :=
  j.variant < k.variant ∨ j.variant = k.variant ∧
    (j.field.toNat < k.field.toNat ∨ j.field = k.field ∧ IndexedLe j.variant j.value k.value ∧
      (j.value = k.value → j.object.toNat ≤ k.object.toNat))

theorem exists_bytes_eq {bs : Bytes} (h : minLength ≤ bs.length) : ∃ k : IndexKey, bs = k.bytes := by
  rw [minLength, headLength] at h
  obtain ⟨variant, rest, rfl⟩ := List.exists_cons_of_length_pos (Nat.lt_of_lt_of_le (by decide) h)
  rw [List.length_cons] at h
  have hvalue : ((rest.drop 16).take (rest.length - 32)).length = rest.length - 32 := by
    rw [List.length_take, List.length_drop]
    omega
  have hobject : ((rest.drop 16).drop (rest.length - 32)).length = 16 := by
    rw [List.length_drop, List.length_drop]
    omega
  refine ⟨⟨variant, ⟨rest.take 16, ?_⟩, (rest.drop 16).take (rest.length - 32),
    ⟨(rest.drop 16).drop (rest.length - 32), hobject⟩⟩, ?_⟩
  · rw [List.length_take]
    omega
  · rw [bytes, List.append_assoc, List.take_append_drop, List.take_append_drop]

end IndexKey

theorem indexable_iff {bs : Bytes} : Indexable bs ↔ IndexKey.minLength ≤ bs.length ∧
    (bs.head? = some Variant.scalar.tag →
      Scalar ((bs.drop IndexKey.headLength).take (bs.length - IndexKey.minLength))) := by
  have hparts (k : IndexKey) : k.bytes.head? = some Variant.scalar.tag ↔ k.variant = Variant.scalar.tag := by
    rw [IndexKey.bytes, List.head?_cons, Option.some_inj]
  constructor
  · rintro ⟨k, rfl, hk⟩
    refine ⟨by rw [k.length_bytes]; omega, fun hhead => ?_⟩
    rw [k.value_bytes]
    exact hk ((hparts k).mp hhead)
  · rintro ⟨hlength, hscalar⟩
    obtain ⟨k, rfl⟩ := IndexKey.exists_bytes_eq hlength
    refine ⟨k, rfl, fun hvariant => ?_⟩
    have hvalue := hscalar ((hparts k).mpr hvariant)
    rwa [k.value_bytes] at hvalue

theorem Value.exists_decode {type : DataType} {payload : Bytes} (hnumeric : type.IsNumeric)
    (hsized : Sized (some type) payload) :
    ∃ v : Value, v.type = type ∧ decode (type.tag :: payload) = .ok (some v) := by
  cases type with
  | integer => exact ⟨_, rfl, decode_of_payload rfl (hsized _ rfl)⟩
  | decimal => exact ⟨_, rfl, decode_of_payload rfl (hsized _ rfl)⟩
  | datetime => exact ⟨_, rfl, decode_of_payload rfl (hsized _ rfl)⟩
  | enum => exact ⟨_, rfl, decode_of_payload rfl (hsized _ rfl)⟩
  | string | boolean | id | association => contradiction

namespace IndexRank

variable {a b : Bytes} {s t : UInt8} {v w : Value}

theorem number_isLE_iff (ha : Scalar a) (hb : Scalar b) (hv : Value.decode a = .ok (some v))
    (hw : Value.decode b = .ok (some w)) (htype : v.type = w.type) (hnumeric : v.type.IsNumeric) :
    (compareScalar a b).isLE ↔ v.Le w := by
  have hstring : v.type ≠ .string := fun h => by rw [h] at hnumeric; exact hnumeric
  have hboolean : v.type ≠ .boolean := fun h => by rw [h] at hnumeric; exact hnumeric
  rw [compareScalar_eq ha hb, Value.encode_of_decode hv hstring hboolean,
    Value.encode_of_decode hw (htype ▸ hstring) (htype ▸ hboolean)]
  exact isLE_encode_iff htype hstring

theorem comparePayload_of_bytes (h : ∀ type, DataType.ofTag? s = some type → ¬ type.IsNumeric) :
    comparePayload (DataType.ofTag? s) a b = compare a b := by
  cases htype : DataType.ofTag? s with
  | none => rfl
  | some type =>
    have hbytes := h type htype
    cases type with
    | integer | decimal | datetime | enum => exact absurd trivial hbytes
    | string | boolean | id | association => rfl

theorem scalarLe_of_isLE (ha : Scalar (s :: a)) (hb : Scalar (s :: b))
    (h : (comparePayload (DataType.ofTag? s) a b).isLE) : ScalarLe (s :: a) (s :: b) := by
  by_cases hbytes : ∀ type, DataType.ofTag? s = some type → ¬ type.IsNumeric
  · exact .bytes hbytes (comparePayload_of_bytes hbytes ▸ h)
  · push Not at hbytes
    obtain ⟨type, htype, hnumeric⟩ := hbytes
    obtain rfl := Value.tag_of_ofTag? htype
    obtain ⟨v, hv, hdecode⟩ := Value.exists_decode hnumeric (htype ▸ ha _ _ rfl)
    obtain ⟨w, hw, hdecode'⟩ := Value.exists_decode hnumeric (htype ▸ hb _ _ rfl)
    have hle : (compareScalar (type.tag :: a) (type.tag :: b)).isLE := by
      rwa [compareScalar, Std.ReflOrd.compare_self, Ordering.eq_then]
    have htypes : v.type = w.type := hv.trans hw.symm
    refine .number hdecode hdecode' htypes (hv ▸ hnumeric) ?_
    exact (number_isLE_iff ha hb hdecode hdecode' htypes (hv ▸ hnumeric)).mp hle

theorem compareScalar_isLE_iff (ha : Scalar a) (hb : Scalar b) :
    (compareScalar a b).isLE ↔ ScalarLe a b := by
  constructor
  · intro h
    cases a with
    | nil => exact .empty b
    | cons s a =>
      cases b with
      | nil => contradiction
      | cons t b =>
        rw [compareScalar, Ordering.isLE_then_iff_or] at h
        rcases h with hlt | ⟨heq, hpayload⟩
        · exact .tag (Std.compare_eq_lt.mp hlt)
        · obtain rfl := Std.LawfulEqOrd.eq_of_compare heq
          exact scalarLe_of_isLE ha hb hpayload
  · intro h
    cases h with
    | empty => cases b <;> rfl
    | tag hlt =>
      rw [compareScalar, Std.compare_eq_lt.mpr hlt]
      rfl
    | number hv hw htype hnumeric hle => exact (number_isLE_iff ha hb hv hw htype hnumeric).mpr hle
    | bytes hbytes hle =>
      rw [compareScalar, Std.ReflOrd.compare_self, Ordering.eq_then, comparePayload_of_bytes hbytes]
      exact hle

theorem compareIndexed_isLE_iff {v : UInt8} (ha : v = Variant.scalar.tag → Scalar a)
    (hb : v = Variant.scalar.tag → Scalar b) : (compareIndexed v a b).isLE ↔ IndexedLe v a b := by
  rw [compareIndexed, IndexedLe]
  by_cases hv : v = Variant.scalar.tag
  · rw [if_pos hv, if_pos hv, compareScalar_isLE_iff (ha hv) (hb hv)]
  · rw [if_neg hv, if_neg hv]

theorem compareIndexed_eq_eq_iff {v : UInt8} (ha : v = Variant.scalar.tag → Scalar a)
    (hb : v = Variant.scalar.tag → Scalar b) : compareIndexed v a b = .eq ↔ a = b := by
  rw [compareIndexed_eq ha hb]
  constructor
  · exact fun h => value_injective ha hb (Std.LawfulEqOrd.eq_of_compare h)
  · rintro rfl
    exact Std.ReflOrd.compare_self

end IndexRank

namespace KeyOrder

theorem then_isLE_iff {o p : Ordering} : (o.then p).isLE ↔ o.isLE ∧ (o = .eq → p.isLE) := by
  cases o <;> simp

theorem search_isLE_iff {j k : IndexKey} (hj : j.WellFormed) (hk : k.WellFormed) :
    (search j.bytes k.bytes).isLE ↔ j.Le k := by
  rw [search_bytes, List.compare_cons_cons, Ordering.then_assoc, Ordering.isLE_then_iff_or,
    Std.compare_eq_lt, Std.compare_eq_iff_eq, IndexKey.Le]
  apply or_congr_right
  apply and_congr_right
  intro hvariant
  have hfield : j.field.bytes = k.field.bytes ↔ j.field = k.field :=
    ⟨Id.bytes_injective, congrArg Id.bytes⟩
  have hk' : j.variant = Variant.scalar.tag → Scalar k.value := hvariant ▸ hk
  rw [Ordering.isLE_then_iff_or, Id.compare_bytes_eq_lt, Std.compare_eq_iff_eq, hfield, then_isLE_iff,
    IndexRank.compareIndexed_isLE_iff hj hk', IndexRank.compareIndexed_eq_eq_iff hj hk',
    Id.isLE_compare_iff]

theorem search_seekKey (v : Variant) (field object : Id) {x y : Bytes}
    (h : (compareIndexed v.tag x y).isLE) :
    (search (IndexKey.seekKey v field x) (IndexKey.encode v field y object)).isLE := by
  rw [IndexKey.seekKey, IndexKey.encode, IndexKey.encode, search_bytes, Std.ReflOrd.compare_self,
    Ordering.eq_then, then_isLE_iff]
  exact ⟨h, fun _ => Id.nil_isLE object⟩

def searchable (a b : { bs : Bytes // Indexable bs }) : Ordering := search a b

instance : Std.TransCmp searchable where
  eq_swap {a b} := by
    rw [searchable, searchable, search_eq_ranked a.2 b.2, search_eq_ranked b.2 a.2]
    exact Std.OrientedCmp.eq_swap
  isLE_trans {a b c} hab hbc := by
    rw [searchable, search_eq_ranked a.2 b.2] at hab
    rw [searchable, search_eq_ranked b.2 c.2] at hbc
    rw [searchable, search_eq_ranked a.2 c.2]
    exact Std.TransCmp.isLE_trans hab hbc

instance : Std.LawfulEqCmp searchable where
  eq_of_compare {a b} h := by
    rw [searchable, search_eq_ranked a.2 b.2] at h
    exact Subtype.ext (eq_of_ranked a.2 b.2 h)

/-- On well-formed keys, which are all byte strings of at least 33 bytes with a proper value, the search
table has a total order whose ties are equal keys. -/
theorem search_ordered :
    (∀ bs, Indexable bs ↔ IndexKey.minLength ≤ bs.length ∧
      (bs.head? = some Variant.scalar.tag →
        Scalar ((bs.drop IndexKey.headLength).take (bs.length - IndexKey.minLength)))) ∧
    Std.TransCmp searchable ∧ Std.LawfulEqCmp searchable ∧
    (∀ j k : IndexKey, j.WellFormed → k.WellFormed → ((search j.bytes k.bytes).isLE ↔ j.Le k)) ∧
    (∀ (v : UInt8) (x y : Bytes), (v = Variant.scalar.tag → Scalar x ∧ Scalar y) →
      ((compareIndexed v x y).isLE ↔ IndexedLe v x y)) ∧
    ∀ (v : Variant) (field object : Id) (x y : Bytes), (compareIndexed v.tag x y).isLE →
      (search (IndexKey.seekKey v field x) (IndexKey.encode v field y object)).isLE := by
  refine ⟨fun _ => indexable_iff, inferInstance, inferInstance, fun _ _ => search_isLE_iff, ?_, ?_⟩
  · intro v x y hscalar
    exact IndexRank.compareIndexed_isLE_iff (fun hv => (hscalar hv).1) fun hv => (hscalar hv).2
  · exact fun v field object _ _ => search_seekKey v field object

theorem search_ordered_mixed :
    ∃ j k l m : IndexKey, j.value = (Value.integer (-5)).encode ∧ k.value = (Value.integer 2).encode ∧
      l.value = [66, 97] ∧ m.value = [66, 97, 0] ∧ l.object = j.object ∧ m.object = k.object ∧
      k.object.toNat < j.object.toNat ∧ j.Le k ∧ ¬ k.Le j ∧ l.Le m ∧ ¬ m.Le l := by
  let j : IndexKey := ⟨Variant.scalar.tag, Id.ofNat 7, (Value.integer (-5)).encode, Id.ofNat 9⟩
  let k : IndexKey := ⟨Variant.scalar.tag, Id.ofNat 7, (Value.integer 2).encode, Id.ofNat 1⟩
  let l : IndexKey := ⟨Variant.normal.tag, Id.ofNat 7, [66, 97], Id.ofNat 9⟩
  let m : IndexKey := ⟨Variant.normal.tag, Id.ofNat 7, [66, 97, 0], Id.ofNat 1⟩
  have hnumber (n : Int64) : Scalar (Value.integer n).encode := by
    intro tag payload hvalue type htype width hwidth
    cases hvalue
    cases htype
    cases hwidth
    exact Bytes.length_littleEndian 8 _
  have hj : j.WellFormed := fun _ => hnumber (-5)
  have hk : k.WellFormed := fun _ => hnumber 2
  have hl : l.WellFormed := fun h => absurd h (by decide)
  have hm : m.WellFormed := fun h => absurd h (by decide)
  obtain ⟨-, -, -, hle, -⟩ := search_ordered
  exact ⟨j, k, l, m, rfl, rfl, rfl, rfl, rfl, rfl, by decide, (hle j k hj hk).mp (by decide),
    fun h => absurd ((hle k j hk hj).mpr h) (by decide), (hle l m hl hm).mp (by decide),
    fun h => absurd ((hle m l hm hl).mpr h) (by decide)⟩

end KeyOrder

end ObjectGraph

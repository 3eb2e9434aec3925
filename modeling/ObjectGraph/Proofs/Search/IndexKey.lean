import ObjectGraph.Proofs.Bytes
import ObjectGraph.Proofs.Key
import ObjectGraph.Proofs.KeyOrder
import ObjectGraph.Search.IndexKey

namespace ObjectGraph

theorem Variant.tag_injective {v v' : Variant} (h : v.tag = v'.tag) : v = v' := by
  revert h
  cases v <;> cases v' <;> decide

namespace IndexKey

theorem length_bytes (k : IndexKey) : k.bytes.length = minLength + k.value.length := by
  simp only [bytes, List.length_cons, List.length_append, Id.length_bytes, minLength, headLength]
  omega

theorem take_bytes (k : IndexKey) : k.bytes.take headLength = k.variant :: k.field.bytes := by
  rw [bytes, List.append_assoc, headLength, List.take_succ_cons, List.take_left' k.field.length_bytes]

theorem drop_bytes (k : IndexKey) : k.bytes.drop headLength = k.value ++ k.object.bytes := by
  rw [bytes, List.append_assoc, headLength, List.drop_succ_cons, List.drop_left' k.field.length_bytes]

theorem value_bytes (k : IndexKey) :
    (k.bytes.drop headLength).take (k.bytes.length - minLength) = k.value := by
  rw [drop_bytes, length_bytes, List.take_left' (by omega)]

theorem object_bytes (k : IndexKey) : k.bytes.drop (k.bytes.length - 16) = k.object.bytes := by
  have hoffset : k.bytes.length - 16 = headLength + k.value.length := by
    rw [length_bytes, minLength]
    omega
  rw [hoffset, ← List.drop_drop, drop_bytes, List.drop_left]

theorem ofBytes?_bytes (k : IndexKey) : ofBytes? k.bytes = some k := by
  have hlength := k.length_bytes
  have hfield : Id.readAt? k.bytes 1 = some k.field := by
    rw [bytes, List.append_assoc]
    exact Id.readAt?_append [k.variant] k.field (k.value ++ k.object.bytes) rfl
  have hobject : Id.readAt? k.bytes (k.bytes.length - 16) = some k.object := by
    rw [Id.readAt?, object_bytes, List.take_of_length_le (Nat.le_of_eq k.object.length_bytes),
      Id.ofBytes?_bytes]
  rw [ofBytes?, if_neg (by omega), hfield, hobject, value_bytes]
  rfl

theorem bytes_injective {j k : IndexKey} (h : j.bytes = k.bytes) : j = k := by
  have hj := j.ofBytes?_bytes
  rw [h, k.ofBytes?_bytes] at hj
  exact (Option.some.inj hj).symm

theorem Is.bytes_eq {k : IndexKey} {v : Variant} {field : Id} (h : k.Is v field) :
    k.bytes = encode v field k.value k.object := by
  rw [encode, ← h.1, ← h.2]

theorem encode_injective {v v' : Variant} {field field' object object' : Id} {value value' : Bytes}
    (h : encode v field value object = encode v' field' value' object') :
    v = v' ∧ field = field' ∧ value = value' ∧ object = object' := by
  have hkeys := bytes_injective h
  simp only [mk.injEq] at hkeys
  obtain ⟨hv, hrest⟩ := hkeys
  exact ⟨Variant.tag_injective hv, hrest⟩

end IndexKey

namespace IndexRank

theorem compare_natCast (m n : Nat) : compare (m : Int) n = compare m n := by
  simp only [compare, compareOfLessAndEq, Int.ofNat_lt, Int.natCast_inj]

theorem compare_toNat (a b : UInt8) : compare (a.toNat : Int) b.toNat = compare a b := by
  simp only [compare, compareOfLessAndEq, Int.ofNat_lt, UInt8.lt_iff_toNat_lt, Int.natCast_inj,
    UInt8.toNat_inj]

theorem compare_singleton (x y : Int) : compare [x] [y] = compare x y := by
  rw [List.compare_cons_cons, List.compare_nil_nil, Ordering.then_eq]

def ofBytes (bs : Bytes) : List Int := bs.map fun b => (b.toNat : Int)

theorem compare_ofBytes (a b : Bytes) : compare (ofBytes a) (ofBytes b) = compare a b := by
  induction a generalizing b with
  | nil => cases b <;> rfl
  | cons x a ih =>
    cases b with
    | nil => rfl
    | cons y b =>
      rw [List.compare_cons_cons, ← ih b, ← compare_toNat]
      exact List.compare_cons_cons

theorem ofBytes_injective {a b : Bytes} (h : ofBytes a = ofBytes b) : a = b := by
  apply Std.LawfulEqOrd.eq_of_compare
  rw [← compare_ofBytes, h]
  exact Std.ReflOrd.compare_self

def signed (bs : Bytes) : Int := (UInt64.ofNat (Bytes.ofLittleEndian bs)).toInt64.toInt

def decimal (bs : Bytes) : Int := (Decimal.mk (UInt64.ofNat (Bytes.ofLittleEndian bs))).rank

def payload : Option DataType → Bytes → List Int
  | some .integer, bs | some .datetime, bs => [signed bs]
  | some .decimal, bs => [decimal bs]
  | some .enum, bs => [(Bytes.ofLittleEndian bs : Int)]
  | _, bs => ofBytes bs

def scalar : Bytes → List Int
  | [] => []
  | tag :: bs => (tag.toNat : Int) :: payload (DataType.ofTag? tag) bs

def value (variant : UInt8) (bs : Bytes) : List Int :=
  if variant = Variant.scalar.tag then scalar bs else ofBytes bs

def Sized (type : Option DataType) (bs : Bytes) : Prop :=
  ∀ t, type = some t → ∀ width, t.payloadLength? = some width → bs.length = width

theorem comparePayload_eq {type : Option DataType} {a b : Bytes} (ha : Sized type a)
    (hb : Sized type b) : comparePayload type a b = compare (payload type a) (payload type b) := by
  cases type with
  | none => exact (compare_ofBytes a b).symm
  | some t =>
    have hsized : ∀ width, t.payloadLength? = some width → a.length = width ∧ b.length = width :=
      fun width hwidth => ⟨ha t rfl width hwidth, hb t rfl width hwidth⟩
    cases t with
    | integer | datetime =>
      simp only [comparePayload, if_pos (hsized 8 rfl)]
      exact (compare_singleton _ _).symm
    | decimal =>
      simp only [comparePayload, if_pos (hsized 8 rfl)]
      exact ((compare_singleton _ _).trans (compare_natCast _ _)).symm
    | enum =>
      simp only [comparePayload, if_pos (hsized 4 rfl)]
      exact ((compare_singleton _ _).trans (compare_natCast _ _)).symm
    | string | boolean | id | association => exact (compare_ofBytes a b).symm

theorem ofNat_injective {a b : Bytes} (ha : a.length = 8) (hb : b.length = 8)
    (h : UInt64.ofNat (Bytes.ofLittleEndian a) = UInt64.ofNat (Bytes.ofLittleEndian b)) : a = b := by
  have hlt (bs : Bytes) (hbs : bs.length = 8) : Bytes.ofLittleEndian bs < UInt64.size := by
    have hlt := Bytes.ofLittleEndian_lt bs
    rwa [hbs] at hlt
  apply Bytes.ofLittleEndian_injective (ha.trans hb.symm)
  rw [← UInt64.toNat_ofNat_of_lt' (hlt a ha), ← UInt64.toNat_ofNat_of_lt' (hlt b hb), h]

theorem signed_injective {a b : Bytes} (ha : a.length = 8) (hb : b.length = 8)
    (h : signed a = signed b) : a = b := by
  apply ofNat_injective ha hb
  rw [← UInt64.toUInt64_toInt64 (UInt64.ofNat (Bytes.ofLittleEndian a)), Int64.toInt_inj.mp h,
    UInt64.toUInt64_toInt64]

theorem rank_injective {x y : Decimal} (h : x.rank = y.rank) : x = y := by
  have hx := x.bits.toNat_lt
  have hy := y.bits.toNat_lt
  have hbits : x.bits.toNat = y.bits.toNat := by
    simp only [Decimal.rank, Decimal.signBit, Nat.one_shiftLeft] at h
    split at h <;> split at h <;> omega
  cases x
  cases y
  exact congrArg Decimal.mk (UInt64.toNat_inj.mp hbits)

theorem decimal_injective {a b : Bytes} (ha : a.length = 8) (hb : b.length = 8)
    (h : decimal a = decimal b) : a = b :=
  ofNat_injective ha hb (congrArg Decimal.bits (rank_injective (Int.ofNat_inj.mp h)))

theorem payload_injective {type : Option DataType} {a b : Bytes} (ha : Sized type a)
    (hb : Sized type b) (h : payload type a = payload type b) : a = b := by
  cases type with
  | none => exact ofBytes_injective h
  | some t =>
    have hsized : ∀ width, t.payloadLength? = some width → a.length = width ∧ b.length = width :=
      fun width hwidth => ⟨ha t rfl width hwidth, hb t rfl width hwidth⟩
    cases t with
    | integer | datetime =>
      exact signed_injective (hsized 8 rfl).1 (hsized 8 rfl).2 (List.head_eq_of_cons_eq h)
    | decimal => exact decimal_injective (hsized 8 rfl).1 (hsized 8 rfl).2 (List.head_eq_of_cons_eq h)
    | enum =>
      have hlength : a.length = b.length := (hsized 4 rfl).1.trans (hsized 4 rfl).2.symm
      exact Bytes.ofLittleEndian_injective hlength (Int.ofNat_inj.mp (List.head_eq_of_cons_eq h))
    | string | boolean | id | association => exact ofBytes_injective h

def Scalar (bs : Bytes) : Prop := ∀ tag payload, bs = tag :: payload → Sized (DataType.ofTag? tag) payload

theorem compareScalar_eq {a b : Bytes} (ha : Scalar a) (hb : Scalar b) :
    compareScalar a b = compare (scalar a) (scalar b) := by
  cases a with
  | nil => cases b <;> rfl
  | cons s a =>
    cases b with
    | nil => rfl
    | cons t b =>
      rw [compareScalar, scalar, scalar, List.compare_cons_cons, compare_toNat]
      apply KeyOrder.then_congr
      intro hst
      obtain rfl := Std.LawfulEqOrd.eq_of_compare hst
      exact comparePayload_eq (ha s a rfl) (hb s b rfl)

theorem scalar_injective {a b : Bytes} (ha : Scalar a) (hb : Scalar b) (h : scalar a = scalar b) :
    a = b := by
  cases a with
  | nil =>
    cases b with
    | nil => rfl
    | cons t b => cases h
  | cons s a =>
    cases b with
    | nil => cases h
    | cons t b =>
      obtain ⟨htag, hpayload⟩ := List.cons_eq_cons.mp h
      obtain rfl : s = t := UInt8.toNat_inj.mp (Int.ofNat_inj.mp htag)
      rw [payload_injective (ha s a rfl) (hb s b rfl) hpayload]

theorem compareIndexed_eq {v : UInt8} {a b : Bytes} (ha : v = Variant.scalar.tag → Scalar a)
    (hb : v = Variant.scalar.tag → Scalar b) :
    compareIndexed v a b = compare (value v a) (value v b) := by
  rw [compareIndexed, value, value]
  by_cases hv : v = Variant.scalar.tag
  · rw [if_pos hv, if_pos hv, if_pos hv, compareScalar_eq (ha hv) (hb hv)]
  · rw [if_neg hv, if_neg hv, if_neg hv, compare_ofBytes]

theorem value_injective {v : UInt8} {a b : Bytes} (ha : v = Variant.scalar.tag → Scalar a)
    (hb : v = Variant.scalar.tag → Scalar b) (h : value v a = value v b) : a = b := by
  rw [value, value] at h
  by_cases hv : v = Variant.scalar.tag
  · rw [if_pos hv, if_pos hv] at h
    exact scalar_injective (ha hv) (hb hv) h
  · rw [if_neg hv, if_neg hv] at h
    exact ofBytes_injective h

end IndexRank

def IndexKey.WellFormed (k : IndexKey) : Prop :=
  k.variant = Variant.scalar.tag → IndexRank.Scalar k.value

def Indexable (bs : Bytes) : Prop := ∃ k : IndexKey, bs = k.bytes ∧ k.WellFormed

namespace KeyOrder

def ranked : KeyOrder :=
  compareLex (compareOn (List.take IndexKey.headLength)) <|
    compareLex
      (compareOn fun bs => IndexRank.value (bs.headD 0)
        ((bs.drop IndexKey.headLength).take (bs.length - IndexKey.minLength)))
      (compareOn fun bs => bs.drop (bs.length - 16))

instance : Std.TransCmp ranked := by
  unfold ranked
  infer_instance

theorem ranked_bytes (j k : IndexKey) :
    ranked j.bytes k.bytes =
      (compare (j.variant :: j.field.bytes) (k.variant :: k.field.bytes)).then
        ((compare (IndexRank.value j.variant j.value) (IndexRank.value k.variant k.value)).then
          (compare j.object k.object)) := by
  simp only [ranked, compareLex, compareOn, IndexKey.take_bytes, IndexKey.value_bytes,
    IndexKey.object_bytes]
  rfl

theorem search_bytes (j k : IndexKey) :
    search j.bytes k.bytes =
      (compare (j.variant :: j.field.bytes) (k.variant :: k.field.bytes)).then
        ((compareIndexed j.variant j.value k.value).then (compare j.object k.object)) := by
  rw [search, j.ofBytes?_bytes, k.ofBytes?_bytes, IndexKey.take_bytes, IndexKey.take_bytes]

theorem search_eq_ranked {a b : Bytes} (ha : Indexable a) (hb : Indexable b) :
    search a b = ranked a b := by
  obtain ⟨j, rfl, hj⟩ := ha
  obtain ⟨k, rfl, hk⟩ := hb
  rw [search_bytes, ranked_bytes]
  apply then_congr
  intro hhead
  have hvariant : j.variant = k.variant :=
    List.head_eq_of_cons_eq (Std.LawfulEqOrd.eq_of_compare hhead)
  rw [IndexRank.compareIndexed_eq hj (hvariant ▸ hk), hvariant]

theorem eq_of_ranked {a b : Bytes} (ha : Indexable a) (hb : Indexable b) (h : ranked a b = .eq) :
    a = b := by
  obtain ⟨j, rfl, hj⟩ := ha
  obtain ⟨k, rfl, hk⟩ := hb
  rw [ranked_bytes, Ordering.then_eq_eq, Ordering.then_eq_eq] at h
  obtain ⟨hhead, hvalue, hobject⟩ := h
  have hhead' := Std.LawfulEqOrd.eq_of_compare hhead
  have hvariant : j.variant = k.variant := List.head_eq_of_cons_eq hhead'
  have hfield : j.field.bytes = k.field.bytes := List.tail_eq_of_cons_eq hhead'
  have hvalue' : j.value = k.value := by
    have hranks := Std.LawfulEqOrd.eq_of_compare hvalue
    rw [hvariant] at hranks
    exact IndexRank.value_injective (hvariant ▸ hj) hk hranks
  have hobject' : j.object.bytes = k.object.bytes := Std.LawfulEqOrd.eq_of_compare hobject
  rw [IndexKey.bytes, IndexKey.bytes, hvariant, hfield, hvalue', hobject']

theorem ranked_encode (v : Variant) (field : Id) (x y : Bytes) (o o' : Id) :
    ranked (IndexKey.encode v field x o) (IndexKey.encode v field y o') =
      (compare (IndexRank.value v.tag x) (IndexRank.value v.tag y)).then (compare o o') := by
  rw [IndexKey.encode, IndexKey.encode, ranked_bytes, Std.ReflOrd.compare_self]
  rfl

theorem is_of_between {v : Variant} {field o o' : Id} {x y : Bytes} {k : IndexKey}
    (hxk : ranked (IndexKey.encode v field x o) k.bytes ≠ .gt)
    (hky : ranked k.bytes (IndexKey.encode v field y o') ≠ .gt) :
    k.Is v field ∧ (compare (IndexRank.value v.tag x) (IndexRank.value v.tag k.value)).isLE ∧
      (compare (IndexRank.value v.tag k.value) (IndexRank.value v.tag y)).isLE := by
  replace hxk := Ordering.isLE_iff_ne_gt.mpr hxk
  replace hky := Ordering.isLE_iff_ne_gt.mpr hky
  rw [IndexKey.encode, ranked_bytes] at hxk hky
  have hhead : v.tag :: field.bytes = k.variant :: k.field.bytes := by
    apply Std.LawfulEqOrd.eq_of_compare
    exact Std.OrientedCmp.isLE_antisymm (Ordering.isLE_left_of_isLE_then hxk)
      (Ordering.isLE_left_of_isLE_then hky)
  have hvariant : v.tag = k.variant := List.head_eq_of_cons_eq hhead
  have hfield : field.bytes = k.field.bytes := List.tail_eq_of_cons_eq hhead
  rw [← hvariant, ← hfield, Std.ReflOrd.compare_self] at hxk hky
  refine ⟨⟨hvariant.symm, Id.bytes_injective hfield.symm⟩, ?_, ?_⟩
  · exact Ordering.isLE_left_of_isLE_then hxk
  · exact Ordering.isLE_left_of_isLE_then hky

end KeyOrder

end ObjectGraph

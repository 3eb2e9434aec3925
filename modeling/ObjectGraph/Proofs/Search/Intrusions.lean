import ObjectGraph.Proofs.Ordered.Circles
import ObjectGraph.Proofs.Search.TotalOrder
/-!
The order of the search table on all byte strings. It never contradicts itself on two of them, but three
can follow each other in a circle: two that are compared by what they say, and between their bytes one
that is compared by its bytes alone, as it is too short for a key or its value has a wrong width.
-/

namespace ObjectGraph

open IndexRank (Sized)
open Std (LawfulEqCmp LawfulEqOrd OrientedCmp ReflOrd TransCmp)

/-- Two numbers of one type and, between their bytes, a value of their tag that has another width. The
numbers are in the opposite order. -/
def ValueIntrusion (x z y : Bytes) : Prop :=
  ∃ v w payload, Value.decode x = .ok (some v) ∧ Value.decode y = .ok (some w) ∧ v.type = w.type ∧
    v.type.IsNumeric ∧ ¬ v.Le w ∧ z = v.type.tag :: payload ∧
    v.type.payloadLength? ≠ some payload.length ∧ compare x z = .lt ∧ compare z y = .lt

namespace IndexRank

variable {type : Option DataType} {a b c : Bytes}

def typed (type : Option DataType) (a b : Bytes) : Ordering := compare (payload type a) (payload type b)

instance (type : Option DataType) : TransCmp (typed type) :=
  inferInstanceAs (TransCmp (compareOn (payload type)))

theorem comparePayload_of_not_sized (h : ¬ (Sized type a ∧ Sized type b)) :
    comparePayload type a b = compare a b := by
  cases type with
  | none => rfl
  | some type =>
    have hlength {width : Nat} (hwidth : type.payloadLength? = some width) :
        ¬ (a.length = width ∧ b.length = width) := by
      rintro ⟨ha, hb⟩
      refine h ⟨?_, ?_⟩
      · rintro _ ⟨⟩ width' hwidth'
        rw [ha, Option.some_inj.mp (hwidth.symm.trans hwidth')]
      · rintro _ ⟨⟩ width' hwidth'
        rw [hb, Option.some_inj.mp (hwidth.symm.trans hwidth')]
    cases type with
    | integer | decimal | datetime | enum => simp only [comparePayload, if_neg (hlength rfl)]
    | string | boolean | id | association => rfl

theorem switching (type : Option DataType) :
    Switching (Sized type) (typed type) compare (comparePayload type) :=
  ⟨comparePayload_eq, comparePayload_of_not_sized⟩

instance (type : Option DataType) : OrientedCmp (comparePayload type) :=
  (switching type).orientedCmp fun _ _ => OrientedCmp.eq_swap

instance (type : Option DataType) : LawfulEqCmp (comparePayload type) where
  eq_of_compare := (switching type).eq_of_cmp fun ha hb h =>
    payload_injective ha hb (LawfulEqOrd.eq_of_compare h)

def compareTail (a b : Bytes) : Ordering :=
  comparePayload (a.head?.bind DataType.ofTag?) a.tail b.tail

theorem compareScalar_eq_lex : compareScalar = compareLex (compareOn List.head?) compareTail := by
  funext a b
  cases a with
  | nil => cases b <;> rfl
  | cons s a => cases b <;> rfl

instance : OrientedCmp compareScalar where
  eq_swap {a b} := by
    rw [compareScalar_eq_lex]
    apply compareLex_eq_swap
    intro htag
    rw [compareTail, compareTail, ← OrientedCmp.eq_swap, LawfulEqOrd.eq_of_compare htag]

instance : LawfulEqCmp compareScalar where
  eq_of_compare {a b} h := by
    rw [compareScalar_eq_lex, compareLex, Ordering.then_eq_eq] at h
    have htag : a.head? = b.head? := LawfulEqOrd.eq_of_compare h.1
    have htail : a.tail = b.tail := LawfulEqCmp.eq_of_compare h.2
    cases a with
    | nil =>
      cases b with
      | nil => rfl
      | cons t b => contradiction
    | cons s a =>
      cases b with
      | nil => contradiction
      | cons t b => exact List.cons_eq_cons.mpr ⟨Option.some_inj.mp htag, htail⟩

theorem isNumeric_of_crossed (h : Crossed (Sized type) (typed type) compare a b c) :
    ∃ t, type = some t ∧ t.IsNumeric := by
  have hcyclic := (switching type).cyclic_of_crossed h
  have hbytes : ¬ Cyclic compare a b c := not_cyclic
  obtain ⟨-, hb, -⟩ := h
  cases type with
  | none => exact absurd (fun _ htype => nomatch htype) hb
  | some t =>
    cases t with
    | integer | decimal | datetime | enum => exact ⟨_, rfl, trivial⟩
    | string | boolean | id | association => exact absurd hcyclic hbytes

theorem compareScalar_cons (s : UInt8) (a b : Bytes) :
    compareScalar (s :: a) (s :: b) = comparePayload (DataType.ofTag? s) a b := by
  rw [compareScalar, ReflOrd.compare_self, Ordering.eq_then]

theorem compare_cons (s : UInt8) (a b : Bytes) : compare (s :: a) (s :: b) = compare a b := by
  rw [List.compare_cons_cons, ReflOrd.compare_self, Ordering.eq_then]

theorem not_le_iff {v w : Value} (hv : Value.decode a = .ok (some v))
    (hw : Value.decode b = .ok (some w)) (htype : v.type = w.type) (hnumeric : v.type.IsNumeric) :
    ¬ v.Le w ↔ compareScalar b a = .lt := by
  have hle := number_isLE_iff (Value.scalar_of_decode hv) (Value.scalar_of_decode hw) hv hw htype hnumeric
  rw [← hle, Ordering.isLE_iff_ne_gt, not_ne_iff, OrientedCmp.gt_iff_lt]

theorem sized_iff {t : DataType} (ht : t.IsNumeric) :
    Sized (some t) a ↔ t.payloadLength? = some a.length := by
  have hwidth : ∃ width, t.payloadLength? = some width := by
    cases t with
    | integer | decimal | datetime | enum => exact ⟨_, rfl⟩
    | string | boolean | id | association => contradiction
  obtain ⟨width, hwidth⟩ := hwidth
  constructor
  · intro h
    rw [hwidth, h t rfl width hwidth]
  · rintro h _ ⟨⟩ width' hwidth'
    exact Option.some_inj.mp (h.symm.trans hwidth')

theorem valueIntrusion_of_crossed {s : UInt8}
    (h : Crossed (Sized (DataType.ofTag? s)) (typed (DataType.ofTag? s)) compare a b c) :
    ValueIntrusion (s :: a) (s :: b) (s :: c) := by
  obtain ⟨type, htype, hnumeric⟩ := isNumeric_of_crossed h
  obtain rfl := Value.tag_of_ofTag? htype
  rw [htype] at h
  obtain ⟨ha, hb, hc, hab, hbc, hca⟩ := h
  obtain ⟨v, rfl, hv⟩ := Value.exists_decode hnumeric ha
  obtain ⟨w, hw, hdecode⟩ := Value.exists_decode hnumeric hc
  have hle : ¬ v.Le w := by
    rw [not_le_iff hv hdecode hw.symm hnumeric, compareScalar_cons, htype, comparePayload_eq hc ha]
    exact hca
  rw [← compare_cons v.type.tag] at hab hbc
  exact ⟨v, w, b, hv, hdecode, hw.symm, hnumeric, hle, rfl, mt (sized_iff hnumeric).mpr hb, hab, hbc⟩

theorem cyclic_of_valueIntrusion (h : ValueIntrusion a b c) : Cyclic compareScalar a b c := by
  obtain ⟨v, w, payload, hv, hw, htype, hnumeric, hle, rfl, hlength, hab, hbc⟩ := h
  obtain ⟨x, rfl, -, -⟩ := Value.payload_of_decode hv
  obtain ⟨y, rfl, -, -⟩ := Value.payload_of_decode hw
  have hsized : ¬ Sized (DataType.ofTag? v.type.tag) payload := by
    rw [Value.ofTag?_tag]
    exact mt (sized_iff hnumeric).mp hlength
  have hca := (not_le_iff hv hw htype hnumeric).mp hle
  rw [← htype] at hbc hca ⊢
  rw [compare_cons, ← comparePayload_of_not_sized fun h => hsized h.2, ← compareScalar_cons] at hab
  rw [compare_cons, ← comparePayload_of_not_sized fun h => hsized h.1, ← compareScalar_cons] at hbc
  exact ⟨hab, hbc, hca⟩

theorem ne_nil_of_lt (h : compareScalar a b = .lt) : b ≠ [] := by
  rintro rfl
  cases a <;> contradiction

theorem cyclic_tail (h : Cyclic compareScalar a b c) :
    ∃ s x y z, a = s :: x ∧ b = s :: y ∧ c = s :: z ∧
      Cyclic (comparePayload (DataType.ofTag? s)) x y z := by
  obtain ⟨s, x, rfl⟩ := List.exists_cons_of_ne_nil (ne_nil_of_lt h.2.2)
  obtain ⟨t, y, rfl⟩ := List.exists_cons_of_ne_nil (ne_nil_of_lt h.1)
  obtain ⟨u, z, rfl⟩ := List.exists_cons_of_ne_nil (ne_nil_of_lt h.2.1)
  rw [compareScalar_eq_lex] at h
  rcases h.of_then compareOn_tie with hheads | ⟨hst, htu, hcyclic⟩
  · exact absurd hheads not_cyclic
  · obtain rfl : s = t := Option.some_inj.mp (LawfulEqOrd.eq_of_compare hst)
    obtain rfl : s = u := Option.some_inj.mp (LawfulEqOrd.eq_of_compare htu)
    exact ⟨s, x, y, z, rfl, rfl, rfl, hcyclic⟩

theorem cyclic_compareScalar_iff : Cyclic compareScalar a b c ↔
    ValueIntrusion a b c ∨ ValueIntrusion b c a ∨ ValueIntrusion c a b := by
  constructor
  · intro h
    obtain ⟨s, x, y, z, rfl, rfl, rfl, hcyclic⟩ := cyclic_tail h
    rcases (switching _).cyclic_cases hcyclic with ⟨hx, hy, hz⟩ | hcrossed | hcrossed | hcrossed
    · obtain ⟨hxy, hyz, hzx⟩ := hcyclic
      rw [comparePayload_eq hx hy] at hxy
      rw [comparePayload_eq hy hz] at hyz
      rw [comparePayload_eq hz hx] at hzx
      have hnumbers : ¬ Cyclic (typed (DataType.ofTag? s)) x y z := not_cyclic
      exact absurd ⟨hxy, hyz, hzx⟩ hnumbers
    · exact .inl (valueIntrusion_of_crossed hcrossed)
    · exact .inr (.inl (valueIntrusion_of_crossed hcrossed))
    · exact .inr (.inr (valueIntrusion_of_crossed hcrossed))
  · rintro (h | h | h)
    · exact cyclic_of_valueIntrusion h
    · exact (cyclic_of_valueIntrusion h).rotate.rotate
    · exact (cyclic_of_valueIntrusion h).rotate

theorem cyclic_compareIndexed_iff {variant : UInt8} : Cyclic (compareIndexed variant) a b c ↔
    variant = Variant.scalar.tag ∧ Cyclic compareScalar a b c := by
  by_cases hvariant : variant = Variant.scalar.tag
  · have heq : compareIndexed variant = compareScalar := by
      funext a b
      rw [compareIndexed, if_pos hvariant]
    rw [heq, and_iff_right hvariant]
  · have heq : compareIndexed variant = compare := by
      funext a b
      rw [compareIndexed, if_neg hvariant]
    rw [heq]
    exact iff_of_false not_cyclic fun h => hvariant h.1

instance (variant : UInt8) : OrientedCmp (compareIndexed variant) where
  eq_swap {a b} := by
    rw [compareIndexed, compareIndexed]
    split
    · exact OrientedCmp.eq_swap
    · exact OrientedCmp.eq_swap

instance (variant : UInt8) : LawfulEqCmp (compareIndexed variant) where
  eq_of_compare {a b} h := by
    rw [compareIndexed] at h
    split at h
    · exact LawfulEqCmp.eq_of_compare h
    · exact LawfulEqCmp.eq_of_compare h

end IndexRank

/-- Two keys and, between their bytes, one that is too short or differs from them in its value alone, by
which it is no number. The keys are in the opposite order. -/
inductive KeyIntrusion : Bytes → Bytes → Bytes → Prop where
  | short {j k : IndexKey} {z : Bytes} : z.length < IndexKey.minLength → compare j.bytes z = .lt →
      compare z k.bytes = .lt → KeyOrder.search k.bytes j.bytes = .lt → KeyIntrusion j.bytes z k.bytes
  | value {field object object' object'' : Id} {x z y : Bytes} : ValueIntrusion x z y →
      KeyIntrusion (IndexKey.encode .scalar field x object) (IndexKey.encode .scalar field z object')
        (IndexKey.encode .scalar field y object'')

namespace KeyOrder

variable {a b c : Bytes}

def Complete (bs : Bytes) : Prop := IndexKey.minLength ≤ bs.length

theorem search_of_not_complete (h : ¬ (Complete a ∧ Complete b)) : search a b = compare a b := by
  have hnone : IndexKey.ofBytes? a = none ∨ IndexKey.ofBytes? b = none := by
    rcases not_and_or.mp h with h | h
    · exact .inl (if_pos (Nat.lt_of_not_le h))
    · exact .inr (if_pos (Nat.lt_of_not_le h))
  rw [search]
  split
  next hj hk =>
    rcases hnone with hnone | hnone
    · rw [hnone] at hj
      contradiction
    · rw [hnone] at hk
      contradiction
  · rfl

theorem switching : Switching Complete search compare search :=
  ⟨fun _ _ => rfl, search_of_not_complete⟩

def searchRest (j k : IndexKey) : Ordering :=
  (compareIndexed j.variant j.value k.value).then (compare j.object k.object)

def searchHead (k : IndexKey) : Bytes := k.variant :: k.field.bytes

theorem search_bytes_eq_lex (j k : IndexKey) :
    search j.bytes k.bytes = compareLex (compareOn searchHead) searchRest j k :=
  search_bytes j k

theorem searchHead_injective {j k : IndexKey} (h : searchHead j = searchHead k) :
    j.variant = k.variant ∧ j.field = k.field :=
  ⟨List.head_eq_of_cons_eq h, Id.bytes_injective (List.tail_eq_of_cons_eq h)⟩

instance : OrientedCmp search :=
  switching.orientedCmp fun {a b} ha hb => by
    obtain ⟨j, rfl⟩ := IndexKey.exists_bytes_eq ha
    obtain ⟨k, rfl⟩ := IndexKey.exists_bytes_eq hb
    rw [search_bytes_eq_lex, search_bytes_eq_lex]
    apply compareLex_eq_swap
    intro hhead
    obtain ⟨hvariant, -⟩ := searchHead_injective (LawfulEqOrd.eq_of_compare hhead)
    rw [searchRest, searchRest, Ordering.swap_then, ← OrientedCmp.eq_swap, ← OrientedCmp.eq_swap, hvariant]

instance : LawfulEqCmp search where
  eq_of_compare := switching.eq_of_cmp fun {a b} ha hb h => by
    obtain ⟨j, rfl⟩ := IndexKey.exists_bytes_eq ha
    obtain ⟨k, rfl⟩ := IndexKey.exists_bytes_eq hb
    rw [search_bytes_eq_lex, compareLex, searchRest, Ordering.then_eq_eq, Ordering.then_eq_eq] at h
    obtain ⟨hhead, hvalue, hobject⟩ := h
    obtain ⟨hvariant, hfield⟩ := searchHead_injective (LawfulEqOrd.eq_of_compare hhead)
    have hvalue' : j.value = k.value := LawfulEqCmp.eq_of_compare hvalue
    have hobject' : j.object.bytes = k.object.bytes := LawfulEqOrd.eq_of_compare hobject
    rw [IndexKey.bytes, IndexKey.bytes, hvariant, hfield, hvalue', hobject']

theorem cyclic_values {variant : UInt8} {j l k : IndexKey}
    (h : Cyclic (compareLex (fun j k => compareIndexed variant j.value k.value)
      (compareOn fun k => k.object.bytes)) j l k) :
    variant = Variant.scalar.tag ∧ Cyclic compareScalar j.value l.value k.value := by
  have horiented : OrientedCmp fun j k : IndexKey => compareIndexed variant j.value k.value :=
    ⟨OrientedCmp.eq_swap⟩
  have htie {j k : IndexKey} (h : compareIndexed variant j.value k.value = .eq) (l : IndexKey) :
      compareIndexed variant j.value l.value = compareIndexed variant k.value l.value := by
    rw [LawfulEqCmp.eq_of_compare h]
  rcases h.of_then htie with hvalues | ⟨-, -, hobjects⟩
  · exact IndexRank.cyclic_compareIndexed_iff.mp hvalues
  · exact absurd hobjects not_cyclic

theorem cyclic_bytes {j l k : IndexKey} (h : Cyclic search j.bytes l.bytes k.bytes) :
    l.Is .scalar j.field ∧ k.Is .scalar j.field ∧ j.Is .scalar j.field ∧
      Cyclic compareScalar j.value l.value k.value := by
  have hlex : Cyclic (compareLex (compareOn searchHead) searchRest) j l k := by
    simpa only [Cyclic, search_bytes_eq_lex] using h
  rcases hlex.of_then compareOn_tie with hheads | ⟨hjl, hlk, hjl', hlk', hkj'⟩
  · exact absurd hheads not_cyclic
  · obtain ⟨hvariant, hfield⟩ := searchHead_injective (LawfulEqOrd.eq_of_compare hjl)
    obtain ⟨hvariant', hfield'⟩ := searchHead_injective (LawfulEqOrd.eq_of_compare hlk)
    rw [searchRest] at hjl'
    rw [searchRest, ← hvariant] at hlk'
    rw [searchRest, ← hvariant', ← hvariant] at hkj'
    obtain ⟨hscalar, hcyclic⟩ := cyclic_values ⟨hjl', hlk', hkj'⟩
    exact ⟨⟨hvariant.symm.trans hscalar, hfield.symm⟩,
      ⟨(hvariant.trans hvariant').symm.trans hscalar, (hfield.trans hfield').symm⟩, ⟨hscalar, rfl⟩,
      hcyclic⟩

theorem keyIntrusion_of_crossed (h : Crossed Complete search compare a b c) : KeyIntrusion a b c := by
  obtain ⟨ha, hb, hc, hab, hbc, hca⟩ := h
  obtain ⟨j, rfl⟩ := IndexKey.exists_bytes_eq ha
  obtain ⟨k, rfl⟩ := IndexKey.exists_bytes_eq hc
  exact .short (Nat.lt_of_not_le hb) hab hbc hca

theorem keyIntrusion_of_values {j l k : IndexKey} {field : Id} (hj : j.Is .scalar field)
    (hl : l.Is .scalar field) (hk : k.Is .scalar field) (h : ValueIntrusion j.value l.value k.value) :
    KeyIntrusion j.bytes l.bytes k.bytes := by
  rw [hj.bytes_eq, hl.bytes_eq, hk.bytes_eq]
  exact .value h

theorem search_of_compareScalar {field object object' : Id} {x y : Bytes} (h : compareScalar x y = .lt) :
    search (IndexKey.encode .scalar field x object) (IndexKey.encode .scalar field y object') = .lt := by
  have hindexed : compareIndexed Variant.scalar.tag x y = .lt := (if_pos rfl).trans h
  rw [IndexKey.encode, IndexKey.encode, search_bytes, ReflOrd.compare_self, Ordering.eq_then, hindexed,
    Ordering.lt_then]

theorem cyclic_of_keyIntrusion (h : KeyIntrusion a b c) : Cyclic search a b c := by
  cases h with
  | short hshort hjz hzk hkj =>
    refine ⟨?_, ?_, hkj⟩
    · exact (search_of_not_complete fun h => Nat.not_le.mpr hshort h.2).trans hjz
    · exact (search_of_not_complete fun h => Nat.not_le.mpr hshort h.1).trans hzk
  | value h =>
    obtain ⟨hxz, hzy, hyx⟩ := IndexRank.cyclic_of_valueIntrusion h
    exact ⟨search_of_compareScalar hxz, search_of_compareScalar hzy, search_of_compareScalar hyx⟩

theorem cyclic_search_iff :
    Cyclic search a b c ↔ KeyIntrusion a b c ∨ KeyIntrusion b c a ∨ KeyIntrusion c a b := by
  constructor
  · intro h
    rcases switching.cyclic_cases h with ⟨ha, hb, hc⟩ | hcrossed | hcrossed | hcrossed
    · obtain ⟨j, rfl⟩ := IndexKey.exists_bytes_eq ha
      obtain ⟨l, rfl⟩ := IndexKey.exists_bytes_eq hb
      obtain ⟨k, rfl⟩ := IndexKey.exists_bytes_eq hc
      obtain ⟨hl, hk, hj, hvalues⟩ := cyclic_bytes h
      rcases IndexRank.cyclic_compareScalar_iff.mp hvalues with hvalue | hvalue | hvalue
      · exact .inl (keyIntrusion_of_values hj hl hk hvalue)
      · exact .inr (.inl (keyIntrusion_of_values hl hk hj hvalue))
      · exact .inr (.inr (keyIntrusion_of_values hk hj hl hvalue))
    · exact .inl (keyIntrusion_of_crossed hcrossed)
    · exact .inr (.inl (keyIntrusion_of_crossed hcrossed))
    · exact .inr (.inr (keyIntrusion_of_crossed hcrossed))
  · rintro (h | h | h)
    · exact cyclic_of_keyIntrusion h
    · exact (cyclic_of_keyIntrusion h).rotate.rotate
    · exact (cyclic_of_keyIntrusion h).rotate

/-- On all byte strings, the order of values and that of the search table reverse with their operands and
tie equal ones only. They are transitive except around an intrusion. -/
theorem transitive_but_intrusions (a b c : Bytes) :
    compareScalar a b = (compareScalar b a).swap ∧ search a b = (search b a).swap ∧
    (compareScalar a b = .eq ↔ a = b) ∧ (search a b = .eq ↔ a = b) ∧
    ((compareScalar a b).isLE → (compareScalar b c).isLE → ((compareScalar a c).isLE ↔
      ¬ (ValueIntrusion a b c ∨ ValueIntrusion b c a ∨ ValueIntrusion c a b))) ∧
    ((search a b).isLE → (search b c).isLE → ((search a c).isLE ↔
      ¬ (KeyIntrusion a b c ∨ KeyIntrusion b c a ∨ KeyIntrusion c a b))) := by
  refine ⟨OrientedCmp.eq_swap, OrientedCmp.eq_swap, LawfulEqCmp.compare_eq_iff_eq,
    LawfulEqCmp.compare_eq_iff_eq, fun hab hbc => ?_, fun hab hbc => ?_⟩
  · rw [← IndexRank.cyclic_compareScalar_iff]
    exact isLE_iff_not_cyclic hab hbc
  · rw [← cyclic_search_iff]
    exact isLE_iff_not_cyclic hab hbc

theorem transitive_but_intrusions_short :
    ∃ (j k : IndexKey) (z : Bytes), j.value = [97] ∧ k.value = [] ∧ KeyIntrusion j.bytes z k.bytes ∧
      (search j.bytes z).isLE ∧ (search z k.bytes).isLE ∧ ¬ (search j.bytes k.bytes).isLE := by
  let j : IndexKey := ⟨Variant.normal.tag, Id.ofNat 7, [97], Id.ofNat 1⟩
  let k : IndexKey := ⟨Variant.normal.tag, Id.ofNat 7, [], Id.ofNat (2 ^ 128 - 1)⟩
  let z : Bytes := searchHead j ++ [128]
  have hintrusion : KeyIntrusion j.bytes z k.bytes := .short (by decide) (by decide) (by decide) (by decide)
  have hjz : (search j.bytes z).isLE := by decide
  have hzk : (search z k.bytes).isLE := by decide
  obtain ⟨-, -, -, -, -, hle⟩ := transitive_but_intrusions j.bytes z k.bytes
  exact ⟨j, k, z, rfl, rfl, hintrusion, hjz, hzk, fun h => (hle hjz hzk).mp h (.inl hintrusion)⟩

/-- The integers 256 and 1 and a payload of two bytes: the least significant byte of a number comes
first, so the bytes of 256 are the lower ones. -/
theorem not_transitive :
    Cyclic compareScalar (Value.integer 256).encode [1, 0, 2] (Value.integer 1).encode ∧
    Cyclic search (IndexKey.encode .scalar (Id.ofNat 0x3e9) (Value.integer 256).encode (Id.ofNat 1))
      (IndexKey.encode .scalar (Id.ofNat 0x3e9) [1, 0, 2] (Id.ofNat 1))
      (IndexKey.encode .scalar (Id.ofNat 0x3e9) (Value.integer 1).encode (Id.ofNat 1)) ∧
    ¬ TransCmp compareScalar ∧ ¬ TransCmp search := by
  have hscalar : Cyclic compareScalar (Value.integer 256).encode [1, 0, 2] (Value.integer 1).encode :=
    ⟨by decide, by decide, by decide⟩
  have hsearch : Cyclic search
      (IndexKey.encode .scalar (Id.ofNat 0x3e9) (Value.integer 256).encode (Id.ofNat 1))
      (IndexKey.encode .scalar (Id.ofNat 0x3e9) [1, 0, 2] (Id.ofNat 1))
      (IndexKey.encode .scalar (Id.ofNat 0x3e9) (Value.integer 1).encode (Id.ofNat 1)) :=
    ⟨search_of_compareScalar hscalar.1, search_of_compareScalar hscalar.2.1,
      search_of_compareScalar hscalar.2.2⟩
  exact ⟨hscalar, hsearch, fun _ => not_cyclic hscalar, fun _ => not_cyclic hsearch⟩

end KeyOrder

end ObjectGraph

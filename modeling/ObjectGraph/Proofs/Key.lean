import ObjectGraph.Key
import ObjectGraph.Proofs.Bytes
import ObjectGraph.Proofs.KeyOrder

namespace ObjectGraph

namespace Id

theorem bytes_injective {a b : Id} (h : a.bytes = b.bytes) : a = b := by
  cases a
  cases b
  cases h
  rfl

theorem ofBytes?_bytes (a : Id) : ofBytes? a.bytes = some a := dif_pos a.length_bytes

theorem bytes_of_ofBytes? {bs : Bytes} {a : Id} (h : ofBytes? bs = some a) : a.bytes = bs := by
  rw [ofBytes?] at h
  split at h
  · cases h
    rfl
  · contradiction

theorem readAt?_append (before : Bytes) (a : Id) (after : Bytes) {offset : Nat}
    (h : before.length = offset) : readAt? (before ++ (a.bytes ++ after)) offset = some a := by
  have hread : (((before ++ (a.bytes ++ after)).drop offset).take 16) = a.bytes := by
    rw [List.drop_append_of_le_length (by omega), List.drop_of_length_le (by omega), List.nil_append,
      List.take_append_of_le_length (Nat.le_of_eq a.length_bytes.symm),
      List.take_of_length_le (Nat.le_of_eq a.length_bytes)]
  rw [readAt?, hread, ofBytes?_bytes]

theorem length_eq (a b : Id) : a.bytes.length = b.bytes.length := by rw [a.length_bytes, b.length_bytes]

theorem append_injective {a b : Id} {s t : Bytes} (h : a.bytes ++ s = b.bytes ++ t) :
    a = b ∧ s = t := by
  obtain ⟨hab, hst⟩ := List.append_inj h (a.length_eq b)
  exact ⟨bytes_injective hab, hst⟩

instance : Std.TransOrd Id := inferInstanceAs (Std.TransCmp (compareOn bytes))

instance : Std.LawfulEqOrd Id where
  eq_of_compare h := bytes_injective (Std.LawfulEqOrd.eq_of_compare h)

theorem toNat_ofNat {n : Nat} (h : n < 1 <<< 128) : (ofNat n).toNat = n := by
  change Bytes.ofLittleEndian (Bytes.littleEndian 16 n).reverse.reverse = n
  rw [List.reverse_reverse]
  exact Bytes.ofLittleEndian_littleEndian h

theorem toNat_lt (a : Id) : a.toNat < 1 <<< 128 :=
  Nat.lt_of_lt_of_eq (Bytes.ofBigEndian_lt a.bytes) (by rw [a.length_bytes]; decide)

theorem compare_bytes (a b : Id) : compare a.bytes b.bytes = compare a.toNat b.toNat :=
  (Bytes.compare_ofBigEndian (a.length_eq b)).symm

theorem compare_append (a b : Id) (s t : Bytes) :
    compare (a.bytes ++ s) (b.bytes ++ t) = (compare a.bytes b.bytes).then (compare s t) :=
  KeyOrder.compare_append (a.length_eq b) s t

theorem compare_bytes_eq_lt {a b : Id} : compare a.bytes b.bytes = .lt ↔ a.toNat < b.toNat := by
  rw [compare_bytes]
  exact Nat.compare_eq_lt

theorem isLE_compare_iff {a b : Id} : (compare a b).isLE ↔ a.toNat ≤ b.toNat := by
  change (compare a.bytes b.bytes).isLE ↔ _
  rw [compare_bytes]
  exact Std.isLE_compare

theorem nil_isLE (a : Id) : (compare nil a).isLE :=
  KeyOrder.zeros_isLE (Nat.le_of_eq a.length_bytes.symm)

end Id

theorem Half.mirror_mirror (h : Half) : h.mirror.mirror = h := rfl

theorem Half.mirror_injective {h h' : Half} (hm : h.mirror = h'.mirror) : h = h' := by
  rw [← h.mirror_mirror, hm, h'.mirror_mirror]

namespace Key

theorem length_bytes (k : Key) :
    k.bytes.length = match k with
      | object _ => 16
      | field _ _ => 32
      | association _ => 64 := by
  cases k with
  | object a => exact a.length_bytes
  | field a f => simp [bytes, Id.length_bytes]
  | association h => simp [bytes, Half.bytes, Id.length_bytes]

theorem ofBytes?_bytes (k : Key) : ofBytes? k.bytes = some k := by
  have hlength := k.length_bytes
  cases k with
  | object a =>
    have hread : Id.readAt? a.bytes 0 = some a := by
      simpa using Id.readAt?_append [] a [] rfl
    rw [ofBytes?, if_pos hlength, bytes, hread]
    rfl
  | field a f =>
    have hne : (field a f).bytes.length ≠ 16 := by simp [hlength]
    have howner : Id.readAt? (a.bytes ++ f.bytes) 0 = some a := Id.readAt?_append [] a f.bytes rfl
    have hfield : Id.readAt? (a.bytes ++ f.bytes) 16 = some f := by
      simpa using Id.readAt?_append a.bytes f [] a.length_bytes
    rw [ofBytes?, if_neg hne, if_pos hlength, bytes, howner, hfield]
    rfl
  | association h =>
    obtain ⟨a, f, b, g⟩ := h
    have hne : (association ⟨a, f, b, g⟩).bytes.length ≠ 16 := by simp [hlength]
    have hne' : (association ⟨a, f, b, g⟩).bytes.length ≠ 32 := by simp [hlength]
    have hobject : Id.readAt? ([] ++ (a.bytes ++ (f.bytes ++ b.bytes ++ g.bytes))) 0 = some a :=
      Id.readAt?_append [] a _ rfl
    have hfield := Id.readAt?_append a.bytes f (b.bytes ++ g.bytes) a.length_bytes
    have hother := Id.readAt?_append (a.bytes ++ f.bytes) b g.bytes
      (by rw [List.length_append, a.length_bytes, f.length_bytes])
    have hotherField := Id.readAt?_append (a.bytes ++ f.bytes ++ b.bytes) g []
      (by rw [List.length_append, List.length_append, a.length_bytes, f.length_bytes, b.length_bytes])
    simp only [List.append_assoc, List.append_nil, List.nil_append] at hobject hfield hother hotherField
    rw [ofBytes?, if_neg hne, if_neg hne', if_pos hlength]
    simp only [bytes, Half.bytes, List.append_assoc, hobject, hfield, hother, hotherField]
    rfl

theorem bytes_injective {k k' : Key} (h : k.bytes = k'.bytes) : k = k' := by
  have hk := k.ofBytes?_bytes
  rw [h, k'.ofBytes?_bytes] at hk
  exact (Option.some.inj hk).symm

theorem bytes_inj {k k' : Key} : k.bytes = k'.bytes ↔ k = k' := ⟨bytes_injective, fun h => h ▸ rfl⟩

theorem exists_bytes_eq {bs : Bytes} (h : bs.length = 16 ∨ bs.length = 32 ∨ bs.length = 64) :
    ∃ k : Key, bs = k.bytes := by
  rcases h with h | h | h
  · exact ⟨object ⟨bs, h⟩, rfl⟩
  · refine ⟨field ⟨bs.take 16, ?_⟩ ⟨bs.drop 16, ?_⟩, ?_⟩
    · rw [List.length_take]
      omega
    · rw [List.length_drop]
      omega
    · exact (List.take_append_drop 16 bs).symm
  · refine ⟨association ⟨⟨bs.take 16, ?_⟩, ⟨(bs.drop 16).take 16, ?_⟩,
      ⟨((bs.drop 16).drop 16).take 16, ?_⟩, ⟨((bs.drop 16).drop 16).drop 16, ?_⟩⟩, ?_⟩
    · rw [List.length_take]
      omega
    · rw [List.length_take, List.length_drop]
      omega
    · rw [List.length_take, List.length_drop, List.length_drop]
      omega
    · rw [List.length_drop, List.length_drop, List.length_drop]
      omega
    · simp only [bytes, Half.bytes, List.append_assoc, List.take_append_drop]

theorem bytes_eq_of_ofBytes? {bs : Bytes} {k : Key} (h : ofBytes? bs = some k) : bs = k.bytes := by
  have hlength : bs.length = 16 ∨ bs.length = 32 ∨ bs.length = 64 := by
    rw [ofBytes?] at h
    split at h
    · omega
    · split at h
      · omega
      · split at h
        · omega
        · contradiction
  obtain ⟨k', rfl⟩ := exists_bytes_eq hlength
  rw [ofBytes?_bytes] at h
  cases h
  rfl

theorem mirror?_bytes (k : Key) :
    mirror? k.bytes = match k with
      | association h => some (association h.mirror).bytes
      | _ => none := by
  rw [mirror?, ofBytes?_bytes]
  cases k <;> rfl

theorem bytes_eq_owner_append (k : Key) : ∃ rest, k.bytes = k.owner.bytes ++ rest := by
  cases k with
  | object a => exact ⟨[], (List.append_nil _).symm⟩
  | field a f => exact ⟨f.bytes, rfl⟩
  | association h =>
    exact ⟨h.field.bytes ++ h.other.bytes ++ h.otherField.bytes, by simp [bytes, Half.bytes, owner]⟩

theorem isPrefixOf_owner {a : Id} {k : Key} : a.bytes.isPrefixOf k.bytes ↔ k.owner = a := by
  obtain ⟨rest, hrest⟩ := k.bytes_eq_owner_append
  rw [List.isPrefixOf_iff_prefix, hrest]
  constructor
  · rintro ⟨s, hs⟩
    exact (Id.append_injective hs).1.symm
  · rintro rfl
    exact List.prefix_append _ _

theorem isPrefixOf_field {a f : Id} {k : Key} :
    (field a f).bytes.isPrefixOf k.bytes ↔
      k = field a f ∨ ∃ h, k = association h ∧ h.object = a ∧ h.field = f := by
  rw [List.isPrefixOf_iff_prefix]
  constructor
  · intro hprefix
    have hle := hprefix.length_le
    obtain ⟨s, hs⟩ := hprefix
    cases k with
    | object b =>
      simp only [length_bytes] at hle
      omega
    | field b g =>
      left
      have hfull : (field a f).bytes ++ s = (field b g).bytes ++ [] := by rw [hs, List.append_nil]
      have heq := (List.append_inj hfull (by rw [length_bytes, length_bytes])).1
      exact (bytes_injective heq).symm
    | association h =>
      right
      simp only [bytes, Half.bytes, List.append_assoc] at hs
      obtain ⟨hobject, hs⟩ := Id.append_injective hs
      obtain ⟨hfield, -⟩ := Id.append_injective hs
      exact ⟨h, rfl, hobject.symm, hfield.symm⟩
  · rintro (rfl | ⟨h, rfl, rfl, rfl⟩)
    · exact List.prefix_rfl
    · exact ⟨h.other.bytes ++ h.otherField.bytes, by simp [bytes, Half.bytes]⟩

end Key

end ObjectGraph

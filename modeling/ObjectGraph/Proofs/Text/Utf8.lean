import ObjectGraph.Search.Entries

namespace ObjectGraph

namespace Utf8

theorem encode_eq (s : String) : encode s = s.toList.utf8Encode.data.toList := by
  rw [encode, String.utf8Encode_toList]

theorem mk_encode (s : String) : ByteArray.mk (encode s).toArray = s.toByteArray := by
  rw [encode, Array.toArray_toList]

theorem decode?_encode (s : String) : decode? (encode s) = some s := by
  have hvalid : s.toByteArray.IsValidUTF8 := s.isValidUTF8
  rw [decode?, mk_encode, String.fromUTF8?, dif_pos hvalid]
  rfl

theorem encode_injective {s t : String} (h : encode s = encode t) : s = t := by
  have hdecoded := decode?_encode s
  rw [h, decode?_encode] at hdecoded
  exact (Option.some.inj hdecoded).symm

theorem encode_prefix_iff {s t : String} : encode t <+: encode s ↔ t.toList <+: s.toList := by
  constructor
  · rintro ⟨rest, h⟩
    apply List.isPrefix_of_utf8Encode_append_eq_utf8Encode ⟨rest.toArray⟩
    rw [encode_eq, encode_eq] at h
    apply ByteArray.ext
    apply Array.toList_inj.mp
    rw [← h, ByteArray.data_append, Array.toList_append]
  · rintro ⟨rest, h⟩
    rw [encode_eq, encode_eq, ← h, List.utf8Encode_append, ByteArray.data_append, Array.toList_append]
    exact List.prefix_append _ _

end Utf8

theorem encode_reversed_prefix_iff {s t : String} :
    Utf8.encode (reversed t) <+: Utf8.encode (reversed s) ↔ t.toList <:+ s.toList := by
  rw [Utf8.encode_prefix_iff, reversed, reversed, String.toList_ofList, String.toList_ofList,
    List.reverse_prefix]

end ObjectGraph

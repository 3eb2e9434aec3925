import ObjectGraph.Proofs.Ordered.Distinct
import ObjectGraph.Proofs.Search.IndexKey
import ObjectGraph.Proofs.Value
import ObjectGraph.Search.Entries
import ObjectGraph.Schema.Basic
import ObjectGraph.Key
import ObjectGraph.Storage.Table

namespace ObjectGraph

inductive Contributes (raw : Bytes) : Variant → Bytes → Prop where
  | normal {s : String} : Value.decode raw = .ok (some (.string s)) →
      Contributes raw .normal (Utf8.encode s)
  | reverse {s : String} : Value.decode raw = .ok (some (.string s)) →
      Contributes raw .reverse (Utf8.encode (String.ofList s.toList.reverse))
  | ngram {s : String} {a b c : Char} : Value.decode raw = .ok (some (.string s)) →
      [a, b, c] <:+: s.toList → Contributes raw .ngram (Utf8.encode (String.ofList [a, b, c]))
  | scalar {x : Value} : Value.decode raw = .ok (some x) → x.type ≠ .string →
      Contributes raw .scalar raw

def Posts (object field : Id) (raw key : Bytes) : Prop :=
  ∃ v content, Contributes raw v content ∧ key = IndexKey.encode v field content object

def Derived (schema : Schema) (objects : List Entry) (key : Bytes) : Prop :=
  ∃ object field raw, ((Key.field object field).bytes, raw) ∈ objects ∧ schema.isIndexed field ∧
    Posts object field raw key

def Valued (schema : Schema) (objects : List Entry) : Prop :=
  ∀ object field raw, ((Key.field object field).bytes, raw) ∈ objects → schema.isIndexed field →
    ∃ x, Value.decode raw = .ok (some x)

theorem mem_trigrams {t : String} {cs : List Char} :
    t ∈ trigrams cs ↔ ∃ a b c, [a, b, c] <:+: cs ∧ t = String.ofList [a, b, c] := by
  fun_induction trigrams cs with
  | case1 a b c rest ih =>
    rw [List.mem_cons, ih]
    constructor
    · rintro (rfl | ⟨a', b', c', h, rfl⟩)
      · exact ⟨a, b, c, List.IsPrefix.isInfix ⟨rest, rfl⟩, rfl⟩
      · exact ⟨a', b', c', List.infix_cons h, rfl⟩
    · rintro ⟨a', b', c', h, rfl⟩
      rcases List.infix_cons_iff.mp h with hprefix | h
      · simp only [List.cons_prefix_cons] at hprefix
        obtain ⟨rfl, rfl, rfl, -⟩ := hprefix
        exact .inl rfl
      · exact .inr ⟨a', b', c', h, rfl⟩
  | case2 cs hshort =>
    refine ⟨nofun, ?_⟩
    rintro ⟨a, b, c, h, -⟩
    have hlength := h.length_le
    match cs with
    | [] => simp at hlength
    | [_] => simp at hlength
    | [_, _] => simp at hlength
    | x :: y :: z :: rest => exact absurd rfl (hshort x y z rest)

theorem mem_ngrams {t s : String} :
    t ∈ ngrams s ↔ ∃ a b c, [a, b, c] <:+: s.toList ∧ t = String.ofList [a, b, c] := by
  rw [ngrams, Distinct.mem_ofList, mem_trigrams]

theorem contributes_iff {raw content : Bytes} {v : Variant} {forms : List (Variant × Bytes)}
    (h : indexForms raw = .ok forms) : (v, content) ∈ forms ↔ Contributes raw v content := by
  rw [indexForms] at h
  obtain ⟨x, hx, h⟩ := Stateful.bind_eq_ok.mp h
  have hvalue {y : Value} (hy : Value.decode raw = .ok (some y)) : x = some y :=
    Except.ok.inj (hx.symm.trans hy)
  constructor
  · intro hmem
    split at h
    · cases h
      contradiction
    next s =>
      cases h
      simp only [List.mem_cons, List.mem_map, Prod.mk.injEq] at hmem
      obtain ⟨rfl, rfl⟩ | ⟨rfl, rfl⟩ | ⟨g, hg, rfl, rfl⟩ := hmem
      · exact .normal hx
      · exact .reverse hx
      · obtain ⟨a, b, c, hpart, rfl⟩ := mem_ngrams.mp hg
        exact .ngram hx hpart
    next y hstring =>
      cases h
      obtain ⟨rfl, rfl⟩ := Prod.mk.inj (List.mem_singleton.mp hmem)
      refine .scalar hx ?_
      intro htype
      cases y <;> first | exact hstring _ rfl | cases htype
  · rintro (hs | hs | ⟨hs, hpart⟩ | ⟨hy, htype⟩)
    · cases hvalue hs
      cases h
      exact List.mem_cons_self
    · cases hvalue hs
      cases h
      exact List.mem_cons_of_mem _ List.mem_cons_self
    · cases hvalue hs
      cases h
      simp only [List.mem_cons, List.mem_map]
      exact .inr (.inr ⟨_, mem_ngrams.mpr ⟨_, _, _, hpart, rfl⟩, rfl⟩)
    · cases hvalue hy
      split at h
      · contradiction
      next heq =>
        cases heq
        contradiction
      · cases h
        exact List.mem_singleton_self _

theorem Value.scalar_of_decode {raw : Bytes} {x : Option Value} (h : decode raw = .ok x) :
    IndexRank.Scalar raw := by
  rintro tag payload rfl type htype width hwidth
  simp only [decode, htype, hwidth] at h
  split at h
  · assumption
  · contradiction

theorem Posts.indexable {object field : Id} {raw key : Bytes} (h : Posts object field raw key) :
    Indexable key := by
  obtain ⟨v, content, hcontent, rfl⟩ := h
  refine ⟨_, rfl, fun hv => ?_⟩
  obtain rfl : v = .scalar := Variant.tag_injective hv
  cases hcontent with
  | scalar hx => exact Value.scalar_of_decode hx

theorem Posts.unique {object object' field field' : Id} {raw raw' key : Bytes}
    (h : Posts object field raw key) (h' : Posts object' field' raw' key) :
    object = object' ∧ field = field' := by
  obtain ⟨v, content, -, rfl⟩ := h
  obtain ⟨v', content', -, hkey⟩ := h'
  obtain ⟨-, hfield, -, hobject⟩ := IndexKey.encode_injective hkey
  exact ⟨hobject, hfield⟩

theorem Derived.indexable {schema : Schema} {objects : List Entry} {key : Bytes}
    (h : Derived schema objects key) : Indexable key := by
  obtain ⟨object, field, raw, -, -, hposts⟩ := h
  exact hposts.indexable

end ObjectGraph

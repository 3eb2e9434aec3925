import ObjectGraph.Proofs.Ordered.Dictionary
import ObjectGraph.Proofs.Search.IndexKey
import ObjectGraph.Storage.Table

namespace ObjectGraph

open Dictionary (Ascending)

structure Postings (d : List Entry) : Prop where
  indexable : ∀ e ∈ d, Indexable e.1
  ascending : Ascending KeyOrder.search d

namespace Postings

variable {d : List Entry} {k : Bytes}

theorem nil : Postings [] := ⟨by simp, Ascending.nil⟩

theorem agree (h : Postings d) (hk : Indexable k) :
    ∀ e ∈ d, KeyOrder.search k e.1 = KeyOrder.ranked k e.1 :=
  fun e he => KeyOrder.search_eq_ranked hk (h.indexable e he)

theorem ascending_ranked (h : Postings d) : Ascending KeyOrder.ranked d :=
  (Dictionary.ascending_of_agree fun a ha => h.agree (h.indexable a ha)).mp h.ascending

theorem of_ranked (hindexable : ∀ e ∈ d, Indexable e.1) (hd : Ascending KeyOrder.ranked d) :
    Postings d := by
  refine ⟨hindexable, (Dictionary.ascending_of_agree ?_).mpr hd⟩
  exact fun a ha b hb => KeyOrder.search_eq_ranked (hindexable a ha) (hindexable b hb)

theorem ranked_eq_iff (h : Postings d) (hk : Indexable k) {e : Entry} (he : e ∈ d) :
    KeyOrder.ranked k e.1 = .eq ↔ k = e.1 := by
  constructor
  · exact KeyOrder.eq_of_ranked hk (h.indexable e he)
  · rintro rfl
    exact Std.ReflCmp.compare_self

theorem keys_nodup (h : Postings d) : (d.map Prod.fst).Nodup := h.ascending_ranked.keys_nodup

theorem ext {d' : List Entry} (h : Postings d) (h' : Postings d')
    (hmem : ∀ (k : IndexKey) v, (k.bytes, v) ∈ d ↔ (k.bytes, v) ∈ d') : d = d' := by
  apply h.ascending_ranked.ext h'.ascending_ranked
  rintro ⟨key, v⟩
  constructor
  · intro he
    obtain ⟨k, rfl, -⟩ := h.indexable _ he
    exact (hmem k v).mp he
  · intro he
    obtain ⟨k, rfl, -⟩ := h'.indexable _ he
    exact (hmem k v).mpr he

theorem insert (h : Postings d) (hk : Indexable k) (v : Bytes) :
    Postings (Dictionary.insert KeyOrder.search k v d) ∧
      ∀ j, j ∈ (Dictionary.insert KeyOrder.search k v d).map Prod.fst ↔
        j = k ∨ j ∈ d.map Prod.fst := by
  rw [Dictionary.insert_of_agree (h.agree hk)]
  have hmem {e : Entry} := Dictionary.mem_insert h.ascending_ranked (k := k) (v := v) (e := e)
  refine ⟨of_ranked ?_ (h.ascending_ranked.insert k v), ?_⟩
  · intro e he
    rcases hmem.mp he with rfl | ⟨he, -⟩
    · exact hk
    · exact h.indexable e he
  · intro j
    simp only [List.mem_map]
    constructor
    · rintro ⟨e, he, rfl⟩
      rcases hmem.mp he with rfl | ⟨he, -⟩
      · exact .inl rfl
      · exact .inr ⟨e, he, rfl⟩
    · rintro (rfl | ⟨e, he, rfl⟩)
      · exact ⟨(j, v), hmem.mpr (.inl rfl), rfl⟩
      · by_cases hek : k = e.1
        · exact ⟨(k, v), hmem.mpr (.inl rfl), hek⟩
        · exact ⟨e, hmem.mpr (.inr ⟨he, fun heq => hek ((h.ranked_eq_iff hk he).mp heq)⟩), rfl⟩

theorem erase (h : Postings d) (hk : Indexable k) :
    Postings (Dictionary.erase KeyOrder.search k d) ∧
      ∀ j, j ∈ (Dictionary.erase KeyOrder.search k d).map Prod.fst ↔
        j ∈ d.map Prod.fst ∧ j ≠ k := by
  rw [Dictionary.erase_of_agree (h.agree hk)]
  have hmem {e : Entry} := Dictionary.mem_erase h.ascending_ranked (k := k) (e := e)
  refine ⟨of_ranked ?_ (h.ascending_ranked.erase k), ?_⟩
  · exact fun e he => h.indexable e (hmem.mp he).1
  · intro j
    simp only [List.mem_map]
    constructor
    · rintro ⟨e, he, rfl⟩
      obtain ⟨he, hne⟩ := hmem.mp he
      refine ⟨⟨e, he, rfl⟩, ?_⟩
      rintro rfl
      exact hne Std.ReflCmp.compare_self
    · rintro ⟨⟨e, he, rfl⟩, hne⟩
      exact ⟨e, hmem.mpr ⟨he, fun heq => hne ((h.ranked_eq_iff hk he).mp heq).symm⟩, rfl⟩

end Postings

end ObjectGraph

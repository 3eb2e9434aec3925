import ObjectGraph.Proofs.Ordered.Distinct
import ObjectGraph.Proofs.Search.Upkeep
import ObjectGraph.Search.Query

namespace ObjectGraph

open Dictionary (Ascending)

namespace Searcher

section Judging

variable {v : Variant} {field : Id} {judge : Bytes → Except Error Verdict} {verdict : Bytes → Verdict}

def inScope (v : Variant) (field : Id) (verdict : Bytes → Verdict) (e : Entry) : Bool :=
  (IndexKey.ofBytes? e.1).any fun k => k.Is v field ∧ verdict k.value ≠ .stop

def kept? (verdict : Bytes → Verdict) (e : Entry) : Option Id :=
  (IndexKey.ofBytes? e.1).bind fun k => if verdict k.value = .keep then some k.object else none

theorem judgeEach_eq {l : List Entry} (hl : ∀ e ∈ l, Indexable e.1)
    (hjudge : ∀ e ∈ l, ∀ k, IndexKey.ofBytes? e.1 = some k → k.Is v field →
      judge k.value = .ok (verdict k.value)) :
    judgeEach v field judge l =
      .ok ((l.takeWhile (inScope v field verdict)).filterMap (kept? verdict)) := by
  induction l with
  | nil => rfl
  | cons e l ih =>
    obtain ⟨k, hk, -⟩ := hl e List.mem_cons_self
    have hparsed : IndexKey.ofBytes? e.1 = some k := hk ▸ k.ofBytes?_bytes
    have hrest := ih (fun a ha => hl a (List.mem_cons_of_mem _ ha))
      fun a ha => hjudge a (List.mem_cons_of_mem _ ha)
    simp only [judgeEach, hparsed]
    by_cases his : k.Is v field
    · rw [if_pos his, hjudge e List.mem_cons_self k hparsed his]
      simp only [bind, Except.bind, hrest]
      cases hverdict : verdict k.value with
      | keep => simp [inScope, kept?, hparsed, his, hverdict, pure, Except.pure]
      | skip => simp [inScope, kept?, hparsed, his, hverdict]
      | stop => simp [inScope, hparsed, hverdict, pure, Except.pure]
    · simp [inScope, hparsed, his]

end Judging

def Finds (result : Except Error (List Id)) (P : Id → Prop) : Prop :=
  ∃ hits, result = .ok hits ∧ hits.Pairwise (compare · · = .lt) ∧ ∀ o, o ∈ hits ↔ P o

theorem Finds.congr {result : Except Error (List Id)} {P Q : Id → Prop} (h : Finds result P)
    (hPQ : ∀ o, P o ↔ Q o) : Finds result Q := by
  obtain ⟨hits, hresult, hascending, hmem⟩ := h
  exact ⟨hits, hresult, hascending, fun o => (hmem o).trans (hPQ o)⟩

theorem seekKey_indexable {v : Variant} {start : Bytes} (h : v = .scalar → IndexRank.Scalar start)
    (field : Id) : Indexable (IndexKey.seekKey v field start) :=
  ⟨_, rfl, fun hv => h (Variant.tag_injective hv)⟩

section Scanning

variable {q : Searcher} {keys : Bytes → Prop} {v : Variant} {field : Id} {start : Bytes}
  {judge : Bytes → Except Error Verdict} {verdict : Bytes → Verdict}

theorem inScope_iff {e : Entry} {k : IndexKey} (he : e.1 = k.bytes) :
    inScope v field verdict e ↔ k.Is v field ∧ verdict k.value ≠ .stop := by
  rw [inScope, he, k.ofBytes?_bytes]
  exact decide_eq_true_iff

theorem kept?_eq_some {e : Entry} {k : IndexKey} (he : e.1 = k.bytes) {o : Id} :
    kept? verdict e = some o ↔ verdict k.value = .keep ∧ k.object = o := by
  rw [kept?, he, k.ofBytes?_bytes, Option.bind_some]
  split
  next hkeep => simp [hkeep]
  next hkeep => simp [hkeep]

theorem mem_scope {table : Table} (horder : table.order = KeyOrder.search) (h : Postings table.entries)
    (hscalar : v = .scalar → IndexRank.Scalar start)
    (hfrom : ∀ content, verdict content ≠ .stop →
      (compare (IndexRank.value v.tag start) (IndexRank.value v.tag content)).isLE)
    (hconvex : ∀ x y, (compare (IndexRank.value v.tag start) (IndexRank.value v.tag x)).isLE →
      (compare (IndexRank.value v.tag x) (IndexRank.value v.tag y)).isLE →
        verdict y ≠ .stop → verdict x ≠ .stop) {e : Entry} :
    e ∈ (table.startingAt (IndexKey.seekKey v field start)).takeWhile (inScope v field verdict) ↔
      e ∈ table.entries ∧ inScope v field verdict e := by
  rw [Table.startingAt, horder, Dictionary.startingAt_of_agree (h.agree (seekKey_indexable hscalar field))]
  apply Dictionary.mem_takeWhile_startingAt h.ascending_ranked
  · intro e he hscope
    obtain ⟨k, hk, -⟩ := h.indexable e he
    obtain ⟨his, hgoes⟩ := (inScope_iff hk).mp hscope
    rw [hk, his.bytes_eq, IndexKey.seekKey, KeyOrder.ranked_encode]
    apply Ordering.isLE_iff_ne_gt.mp
    rw [Ordering.isLE_then_iff_or]
    cases hcompare : compare (IndexRank.value v.tag start) (IndexRank.value v.tag k.value) with
    | lt => exact .inl rfl
    | eq => exact .inr ⟨rfl, Id.nil_isLE k.object⟩
    | gt =>
      have hle := hfrom k.value hgoes
      rw [hcompare] at hle
      contradiction
  · intro a ha b hb hseek hab hscope
    obtain ⟨j, hj, -⟩ := h.indexable a ha
    obtain ⟨k, hk, -⟩ := h.indexable b hb
    obtain ⟨his, hgoes⟩ := (inScope_iff hk).mp hscope
    rw [hj] at hseek hab
    rw [hk, his.bytes_eq] at hab
    have hle : KeyOrder.ranked j.bytes (IndexKey.encode v field k.value k.object) ≠ .gt := by simp [hab]
    obtain ⟨his', hfirst, hsecond⟩ := KeyOrder.is_of_between hseek hle
    exact (inScope_iff hj).mpr ⟨his', hconvex _ _ hfirst hsecond hgoes⟩

theorem from_start (h : (q.snapshot.table q.catalog.tables.search).Lists keys)
    (hscalar : v = .scalar → IndexRank.Scalar start) {e : Entry}
    (he : e ∈ (q.snapshot.table q.catalog.tables.search).startingAt (IndexKey.seekKey v field start))
    {k : IndexKey} (hk : e.1 = k.bytes) (his : k.Is v field) :
    (compare (IndexRank.value v.tag start) (IndexRank.value v.tag k.value)).isLE := by
  rw [Table.startingAt, h.order_eq, Dictionary.startingAt_of_agree
    (h.postings.agree (seekKey_indexable hscalar field)),
    Dictionary.mem_startingAt h.postings.ascending_ranked, hk, his.bytes_eq, IndexKey.seekKey,
    KeyOrder.ranked_encode] at he
  exact Ordering.isLE_left_of_isLE_then (Ordering.isLE_iff_ne_gt.mpr he.2)

theorem scan_spec (h : (q.snapshot.table q.catalog.tables.search).Lists keys)
    (hscalar : v = .scalar → IndexRank.Scalar start)
    (hjudge : ∀ content o, keys (IndexKey.encode v field content o) →
      (compare (IndexRank.value v.tag start) (IndexRank.value v.tag content)).isLE →
        judge content = .ok (verdict content))
    (hfrom : ∀ content, verdict content ≠ .stop →
      (compare (IndexRank.value v.tag start) (IndexRank.value v.tag content)).isLE)
    (hconvex : ∀ x y, (compare (IndexRank.value v.tag start) (IndexRank.value v.tag x)).isLE →
      (compare (IndexRank.value v.tag x) (IndexRank.value v.tag y)).isLE →
        verdict y ≠ .stop → verdict x ≠ .stop) :
    Finds (q.scan v field start judge) fun o =>
      ∃ content, keys (IndexKey.encode v field content o) ∧ verdict content = .keep := by
  have hsubset : ∀ e ∈ (q.snapshot.table q.catalog.tables.search).startingAt
      (IndexKey.seekKey v field start), e ∈ (q.snapshot.table q.catalog.tables.search).entries :=
    fun e he => (List.dropWhile_sublist _).subset he
  have hkeys {e : Entry} {k : IndexKey} (he : e ∈ (q.snapshot.table q.catalog.tables.search).entries)
      (hk : e.1 = k.bytes) (his : k.Is v field) : keys (IndexKey.encode v field k.value k.object) := by
    rw [← his.bytes_eq, ← hk, ← h.mem_iff]
    exact List.mem_map_of_mem he
  have hagrees : ∀ e ∈ (q.snapshot.table q.catalog.tables.search).startingAt
      (IndexKey.seekKey v field start), ∀ k, IndexKey.ofBytes? e.1 = some k → k.Is v field →
        judge k.value = .ok (verdict k.value) := by
    intro e he k hparsed his
    obtain ⟨j, hj, -⟩ := h.postings.indexable e (hsubset e he)
    rw [hj, j.ofBytes?_bytes] at hparsed
    cases hparsed
    exact hjudge _ _ (hkeys (hsubset e he) hj his) (from_start h hscalar he hj his)
  have hjudged := judgeEach_eq (fun e he => h.postings.indexable e (hsubset e he)) hagrees
  refine ⟨_, by rw [scan, hjudged]; rfl, Distinct.ascending_ofList _, fun o => ?_⟩
  rw [Distinct.mem_ofList, List.mem_filterMap]
  constructor
  · rintro ⟨e, he, hkept⟩
    obtain ⟨he, hscope⟩ := (mem_scope h.order_eq h.postings hscalar hfrom hconvex).mp he
    obtain ⟨k, hk, -⟩ := h.postings.indexable e he
    obtain ⟨his, -⟩ := (inScope_iff hk).mp hscope
    obtain ⟨hkeep, rfl⟩ := (kept?_eq_some hk).mp hkept
    exact ⟨k.value, hkeys he hk his, hkeep⟩
  · rintro ⟨content, hkey, hkeep⟩
    obtain ⟨e, he, hek⟩ := List.mem_map.mp ((h.mem_iff _).mpr hkey)
    refine ⟨e, (mem_scope h.order_eq h.postings hscalar hfrom hconvex).mpr ⟨he, ?_⟩, ?_⟩
    · exact (inScope_iff (k := ⟨v.tag, field, content, o⟩) hek).mpr ⟨⟨rfl, rfl⟩, by simp [hkeep]⟩
    · exact (kept?_eq_some (k := ⟨v.tag, field, content, o⟩) hek).mpr ⟨hkeep, rfl⟩

theorem scan_until (h : (q.snapshot.table q.catalog.tables.search).Lists keys)
    (hscalar : v = .scalar → IndexRank.Scalar start) {P : Bytes → Prop} {beyond : Bytes → Bool}
    (hbeyond : ∀ content o, keys (IndexKey.encode v field content o) → (beyond content ↔ P content))
    (hupward : ∀ x y, (compare (IndexRank.value v.tag x) (IndexRank.value v.tag y)).isLE → P x → P y) :
    Finds (q.scan v field start fun found => .ok (if beyond found then .stop else .keep)) fun o =>
      ∃ content, keys (IndexKey.encode v field content o) ∧
        (compare (IndexRank.value v.tag start) (IndexRank.value v.tag content)).isLE ∧ ¬ P content := by
  classical
  let within (content : Bytes) : Prop :=
    (compare (IndexRank.value v.tag start) (IndexRank.value v.tag content)).isLE ∧ ¬ P content
  have hkeep (x : Bytes) : (if within x then Verdict.keep else .stop) = .keep ↔ within x := by
    by_cases hx : within x <;> simp [hx]
  have hgoes (x : Bytes) : (if within x then Verdict.keep else .stop) ≠ .stop ↔ within x := by
    by_cases hx : within x <;> simp [hx]
  have hscan := @scan_spec q keys v field start (fun found => .ok (if beyond found then .stop else .keep))
    (fun found => if within found then .keep else .stop) h hscalar
  refine (hscan ?_ ?_ ?_).congr fun o => exists_congr fun content => and_congr_right fun _ => hkeep content
  · intro content o hkey hstart
    by_cases hP : P content
    · simp [within, hP, (hbeyond content o hkey).mpr hP]
    · have hno : ¬ beyond content := fun hb => hP ((hbeyond content o hkey).mp hb)
      simp [within, hP, hno, hstart]
  · exact fun content hcontent => ((hgoes content).mp hcontent).1
  · intro x y hstart hxy hy
    exact (hgoes x).mpr ⟨hstart, fun hx => ((hgoes y).mp hy).2 (hupward x y hxy hx)⟩

end Scanning

end Searcher

end ObjectGraph

import ObjectGraph.Proofs.Database.SearchIndex
import ObjectGraph.Proofs.Search.Scan
import ObjectGraph.Proofs.Text.Utf8

namespace ObjectGraph

open Dictionary (Ascending)
open Stateful (ok_of_toOption)

def Searcher.Stores (q : Searcher) (field object : Id) (s : String) : Prop :=
  ∃ raw, ((Key.field object field).bytes, raw) ∈ (q.snapshot.table q.catalog.tables.objects).entries ∧
    Value.decode raw = .ok (some (.string s))

def Searcher.Derived (q : Searcher) : Bytes → Prop :=
  ObjectGraph.Derived q.catalog.schema (q.snapshot.table q.catalog.tables.objects).entries

def Criterion.Accepts (cutoff : Decimal) (s : String) : Criterion → Prop
  | exact text => s = text
  | startsWith text => text.toList <+: s.toList
  | endsWith text => text.toList <:+ s.toList
  | contains text => text.toList <:+: s.toList
  | similar text least => (least.getD cutoff).toFloat ≤ EditDistance.similarity s text
  | range _ _ => False

theorem occurs_iff {part cs : List Char} : occurs part cs ↔ part <:+: cs := by
  induction cs with
  | nil => simp [occurs]
  | cons c cs ih => rw [occurs, Bool.or_eq_true, ih, List.isPrefixOf_iff_prefix, List.infix_cons_iff]

theorem contributes_normal_iff {raw content : Bytes} : Contributes raw .normal content ↔
    ∃ s, Value.decode raw = .ok (some (.string s)) ∧ content = Utf8.encode s := by
  constructor
  · rintro ⟨⟩
    exact ⟨_, ‹_›, rfl⟩
  · rintro ⟨s, hs, rfl⟩
    exact .normal hs

theorem contributes_reverse_iff {raw content : Bytes} : Contributes raw .reverse content ↔
    ∃ s, Value.decode raw = .ok (some (.string s)) ∧ content = Utf8.encode (reversed s) := by
  constructor
  · rintro ⟨⟩
    exact ⟨_, ‹_›, rfl⟩
  · rintro ⟨s, hs, rfl⟩
    exact .reverse hs

theorem contributes_ngram_iff {raw : Bytes} {g : String} : Contributes raw .ngram (Utf8.encode g) ↔
    ∃ s, Value.decode raw = .ok (some (.string s)) ∧ g ∈ ngrams s := by
  constructor
  · intro hcontent
    generalize hencoded : Utf8.encode g = content at hcontent
    cases hcontent with
    | ngram hs hpart =>
      rw [Utf8.encode_injective hencoded]
      exact ⟨_, hs, mem_ngrams.mpr ⟨_, _, _, hpart, rfl⟩⟩
  · rintro ⟨s, hs, hg⟩
    obtain ⟨a, b, c, hpart, rfl⟩ := mem_ngrams.mp hg
    exact .ngram hs hpart

theorem derived_encode_iff {schema : Schema} {d : List Entry} {v : Variant} {field o : Id}
    {content : Bytes} : Derived schema d (IndexKey.encode v field content o) ↔
      schema.isIndexed field ∧
        ∃ raw, ((Key.field o field).bytes, raw) ∈ d ∧ Contributes raw v content := by
  constructor
  · rintro ⟨o', field', raw, hmem, hindexed, v', content', hcontent, hkey⟩
    obtain ⟨rfl, rfl, rfl, rfl⟩ := IndexKey.encode_injective hkey
    exact ⟨hindexed, raw, hmem, hcontent⟩
  · rintro ⟨hindexed, raw, hmem, hcontent⟩
    exact ⟨o, field, raw, hmem, hindexed, v, content, hcontent, rfl⟩

theorem IndexRank.compare_value {v : Variant} (hv : v ≠ .scalar) (a b : Bytes) :
    compare (value v.tag a) (value v.tag b) = compare a b := by
  have htag : v.tag ≠ Variant.scalar.tag := fun h => hv (Variant.tag_injective h)
  rw [value, value, if_neg htag, if_neg htag, compare_ofBytes]

namespace Searcher

section Textual

variable {q : Searcher} {keys : Bytes → Prop} {field : Id} {v : Variant}

theorem scan_while {start : Bytes} {P : Bytes → Prop} [DecidablePred P]
    (h : (q.snapshot.table q.catalog.tables.search).Lists keys) (hv : v ≠ .scalar)
    (hfrom : ∀ x, P x → (compare start x).isLE)
    (hconvex : ∀ x y, (compare start x).isLE → (compare x y).isLE → P y → P x) :
    Finds (q.scan v field start fun found => .ok (if P found then .keep else .stop)) fun o =>
      ∃ content, keys (IndexKey.encode v field content o) ∧ P content := by
  have hkeep (x : Bytes) : (if P x then Verdict.keep else .stop) = .keep ↔ P x := by
    by_cases hx : P x <;> simp [hx]
  have hgoes (x : Bytes) : (if P x then Verdict.keep else .stop) ≠ .stop ↔ P x := by
    by_cases hx : P x <;> simp [hx]
  have hscan : Finds (q.scan v field start fun found => .ok (if P found then .keep else .stop)) fun o =>
      ∃ content, keys (IndexKey.encode v field content o) ∧
        (if P content then Verdict.keep else .stop) = .keep := by
    apply scan_spec h (fun hs => absurd hs hv) (fun _ _ _ _ => rfl)
    · intro x hx
      rw [IndexRank.compare_value hv]
      exact hfrom x ((hgoes x).mp hx)
    · intro x y hstart hxy hy
      rw [IndexRank.compare_value hv] at hstart hxy
      exact (hgoes x).mpr (hconvex x y hstart hxy ((hgoes y).mp hy))
  exact hscan.congr fun o => exists_congr fun content => and_congr_right fun _ => hkeep content

theorem holding_spec (h : (q.snapshot.table q.catalog.tables.search).Lists keys) (hv : v ≠ .scalar)
    (value : Bytes) :
    Finds (q.holding v field value) fun o => keys (IndexKey.encode v field value o) := by
  have hscan : Finds (q.holding v field value) fun o =>
      ∃ content, keys (IndexKey.encode v field content o) ∧ content = value := by
    apply scan_while h hv
    · rintro x rfl
      rw [Std.ReflOrd.compare_self]
      rfl
    · rintro x _ hx hxy rfl
      exact Std.LawfulEqOrd.eq_of_compare (Std.OrientedCmp.isLE_antisymm hxy hx)
  refine hscan.congr fun o => ?_
  constructor
  · rintro ⟨_, hkey, rfl⟩
    exact hkey
  · exact fun hkey => ⟨value, hkey, rfl⟩

theorem extending_spec (h : (q.snapshot.table q.catalog.tables.search).Lists keys)
    (hv : v ≠ .scalar) (value : Bytes) :
    Finds (q.extending v field value) fun o =>
      ∃ content, keys (IndexKey.encode v field content o) ∧ value <+: content := by
  have hscan : Finds (q.extending v field value) fun o =>
      ∃ content, keys (IndexKey.encode v field content o) ∧ value.isPrefixOf content := by
    apply scan_while h hv
    · intro x hx
      exact KeyOrder.isLE_of_prefix (List.isPrefixOf_iff_prefix.mp hx)
    · intro x y hx hxy hy
      exact List.isPrefixOf_iff_prefix.mpr
        (KeyOrder.prefix_of_between hx hxy (List.isPrefixOf_iff_prefix.mp hy))
  simpa only [List.isPrefixOf_iff_prefix] using hscan

theorem passing_spec (h : (q.snapshot.table q.catalog.tables.search).Lists keys)
    (htexts : ∀ content o, keys (IndexKey.encode .normal field content o) →
      ∃ s, content = Utf8.encode s) (test : String → Bool) :
    Finds (q.passing field test) fun o =>
      ∃ s, keys (IndexKey.encode .normal field (Utf8.encode s) o) ∧ test s := by
  have hscan : Finds (q.passing field test) fun o =>
      ∃ content, keys (IndexKey.encode .normal field content o) ∧
        (if (Utf8.decode? content).any test then Verdict.keep else .skip) = .keep := by
    apply scan_spec h (fun hs => Variant.noConfusion hs)
    · intro content o hkey _
      obtain ⟨s, rfl⟩ := htexts content o hkey
      simp [Utf8.decode?_encode]
    · intro content _
      rw [IndexRank.compare_value (by decide)]
      exact KeyOrder.isLE_of_prefix List.nil_prefix
    · intro x y _ _ _
      split <;> simp
  refine hscan.congr fun o => ?_
  constructor
  · rintro ⟨content, hkey, hkeep⟩
    obtain ⟨s, rfl⟩ := htexts content o hkey
    refine ⟨s, hkey, ?_⟩
    by_cases hs : test s
    · exact hs
    · simp [Utf8.decode?_encode, hs] at hkeep
  · rintro ⟨s, hkey, hs⟩
    exact ⟨_, hkey, by simp [Utf8.decode?_encode, hs]⟩

theorem narrow_spec (h : (q.snapshot.table q.catalog.tables.search).Lists keys) {found : List Id}
    (hfound : found.Pairwise (compare · · = .lt)) (grams : List String) :
    Finds (q.narrow field found grams) fun o =>
      o ∈ found ∧ ∀ g ∈ grams, keys (IndexKey.encode .ngram field (Utf8.encode g) o) := by
  induction grams generalizing found with
  | nil => exact ⟨found, rfl, hfound, by simp⟩
  | cons g grams ih =>
    rw [narrow]
    by_cases hempty : found.isEmpty
    · rw [if_pos hempty]
      refine ⟨found, rfl, hfound, fun o => ?_⟩
      simp [List.isEmpty_iff.mp hempty]
    · rw [if_neg hempty]
      obtain ⟨more, hmore, -, hmem⟩ : Finds (q.holding .ngram field (Utf8.encode g)) _ :=
        holding_spec h (by decide) _
      rw [hmore]
      refine (ih (hfound.sublist (List.filter_sublist ..))).congr fun o => ?_
      simp only [List.mem_filter, decide_eq_true_eq, hmem, List.forall_mem_cons, and_assoc]

end Textual

section Stored

variable {q : Searcher} {field o : Id} {s text : String}

theorem Stores.decode_get? (hobjects : (q.snapshot.table q.catalog.tables.objects).Valid KeyOrder.lexicographic)
    (h : q.Stores field o s) :
    Value.decode (((q.snapshot.table q.catalog.tables.objects).get?
      (Key.field o field).bytes).getD []) = .ok (some (.string s)) := by
  obtain ⟨raw, hmem, hdecode⟩ := h
  rw [hobjects.get?_eq, (Dictionary.get?_eq_some_iff hobjects.ascending).mpr hmem]
  exact hdecode

theorem Stores.unique (hobjects : (q.snapshot.table q.catalog.tables.objects).Valid KeyOrder.lexicographic)
    {s' : String} (h : q.Stores field o s) (h' : q.Stores field o s') : s = s' := by
  have hdecode := h.decode_get? hobjects
  rw [h'.decode_get? hobjects] at hdecode
  cases hdecode
  rfl

theorem confirm_eq (hobjects : (q.snapshot.table q.catalog.tables.objects).Valid KeyOrder.lexicographic)
    {found : List Id} {accepts : Id → Bool}
    (h : ∀ o ∈ found, ∃ s, q.Stores field o s ∧ includes s text = accepts o) :
    q.confirm field text found = .ok (found.filter accepts) := by
  induction found with
  | nil => rfl
  | cons o found ih =>
    obtain ⟨s, hs, haccepts⟩ := h o List.mem_cons_self
    have hrest := ih fun a ha => h a (List.mem_cons_of_mem _ ha)
    simp only [confirm, hs.decode_get? hobjects, hrest, haccepts, List.filter_cons]
    cases accepts o <;> rfl

theorem confirm_spec (hobjects : (q.snapshot.table q.catalog.tables.objects).Valid KeyOrder.lexicographic)
    {found : List Id} (hstored : ∀ o ∈ found, ∃ s, q.Stores field o s)
    (hfound : found.Pairwise (compare · · = .lt)) :
    Finds (q.confirm field text found) fun o =>
      o ∈ found ∧ ∃ s, q.Stores field o s ∧ text.toList <:+: s.toList := by
  classical
  let accepts (o : Id) : Bool := ∃ s, q.Stores field o s ∧ text.toList <:+: s.toList
  have haccepts : ∀ o ∈ found, ∃ s, q.Stores field o s ∧ includes s text = accepts o := by
    intro o ho
    obtain ⟨s, hs⟩ := hstored o ho
    refine ⟨s, hs, ?_⟩
    rw [Bool.eq_iff_iff, includes, occurs_iff, decide_eq_true_iff]
    constructor
    · exact fun hpart => ⟨s, hs, hpart⟩
    · rintro ⟨s', hs', hpart⟩
      rwa [hs.unique hobjects hs']
  refine ⟨_, confirm_eq hobjects haccepts, hfound.sublist List.filter_sublist, fun o => ?_⟩
  rw [List.mem_filter, decide_eq_true_iff]

theorem derived_text_iff (hindexed : q.catalog.schema.isIndexed field) {v : Variant} {content : Bytes}
    {P : String → Prop} (hform : ∀ raw, Contributes raw v content ↔
      ∃ s, Value.decode raw = .ok (some (.string s)) ∧ P s) :
    q.Derived (IndexKey.encode v field content o) ↔ ∃ s, q.Stores field o s ∧ P s := by
  rw [Searcher.Derived, derived_encode_iff]
  constructor
  · rintro ⟨-, raw, hmem, hcontent⟩
    obtain ⟨s, hs, hP⟩ := (hform raw).mp hcontent
    exact ⟨s, ⟨raw, hmem, hs⟩, hP⟩
  · rintro ⟨s, ⟨raw, hmem, hs⟩, hP⟩
    exact ⟨hindexed, raw, hmem, (hform raw).mpr ⟨s, hs, hP⟩⟩

theorem derived_normal_iff (hindexed : q.catalog.schema.isIndexed field) {content : Bytes} :
    q.Derived (IndexKey.encode .normal field content o) ↔
      ∃ s, q.Stores field o s ∧ content = Utf8.encode s :=
  derived_text_iff hindexed fun _ => contributes_normal_iff

theorem derived_reverse_iff (hindexed : q.catalog.schema.isIndexed field) {content : Bytes} :
    q.Derived (IndexKey.encode .reverse field content o) ↔
      ∃ s, q.Stores field o s ∧ content = Utf8.encode (reversed s) :=
  derived_text_iff hindexed fun _ => contributes_reverse_iff

theorem derived_ngram_iff (hindexed : q.catalog.schema.isIndexed field) {g : String} :
    q.Derived (IndexKey.encode .ngram field (Utf8.encode g) o) ↔
      ∃ s, q.Stores field o s ∧ g ∈ ngrams s :=
  derived_text_iff hindexed fun _ => contributes_ngram_iff

theorem passing_stored (h : (q.snapshot.table q.catalog.tables.search).Lists q.Derived)
    (hindexed : q.catalog.schema.isIndexed field) (test : String → Bool) :
    Finds (q.passing field test) fun o => ∃ s, q.Stores field o s ∧ test s := by
  have htexts : ∀ content o, q.Derived (IndexKey.encode .normal field content o) →
      ∃ s, content = Utf8.encode s := by
    intro content o hkey
    obtain ⟨s, -, hs⟩ := (derived_normal_iff hindexed).mp hkey
    exact ⟨s, hs⟩
  refine (passing_spec h htexts test).congr fun o => exists_congr fun s => and_congr_left fun _ => ?_
  rw [derived_normal_iff hindexed]
  constructor
  · rintro ⟨s', hs', hencode⟩
    rwa [Utf8.encode_injective hencode]
  · exact fun hs => ⟨s, hs, rfl⟩

theorem containing_spec (h : (q.snapshot.table q.catalog.tables.search).Lists q.Derived)
    (hobjects : (q.snapshot.table q.catalog.tables.objects).Valid KeyOrder.lexicographic)
    (hindexed : q.catalog.schema.isIndexed field) (text : String) :
    Finds (q.containing field text) fun o => ∃ s, q.Stores field o s ∧ text.toList <:+: s.toList := by
  have hngrams {o : Id} {s : String} (hs : q.Stores field o s) (hpart : text.toList <:+: s.toList) :
      ∀ g ∈ ngrams text, q.Derived (IndexKey.encode .ngram field (Utf8.encode g) o) := by
    intro g hg
    obtain ⟨a, b, c, hgram, rfl⟩ := mem_ngrams.mp hg
    exact (derived_ngram_iff hindexed).mpr
      ⟨s, hs, mem_ngrams.mpr ⟨a, b, c, hgram.trans hpart, rfl⟩⟩
  rw [containing]
  cases hgrams : ngrams text with
  | nil =>
    refine (passing_stored h hindexed _).congr fun o => exists_congr fun s => and_congr_right fun _ => ?_
    exact occurs_iff
  | cons g grams =>
    rw [hgrams] at hngrams
    obtain ⟨found, hfound, hascending, hmem⟩ : Finds (q.holding .ngram field (Utf8.encode g)) _ :=
      holding_spec h (by decide) _
    obtain ⟨narrowed, hnarrow, hascending', hmem'⟩ : Finds (q.narrow field found grams) _ :=
      narrow_spec h hascending grams
    have hstored : ∀ o ∈ narrowed, ∃ s, q.Stores field o s := by
      intro o ho
      obtain ⟨s, hs, -⟩ := (derived_ngram_iff hindexed).mp ((hmem o).mp ((hmem' o).mp ho).1)
      exact ⟨s, hs⟩
    simp only [hfound, hnarrow, bind, Except.bind]
    refine (confirm_spec hobjects hstored hascending').congr fun o => ?_
    constructor
    · exact And.right
    · rintro ⟨s, hs, hpart⟩
      have hall := hngrams hs hpart
      refine ⟨(hmem' o).mpr ⟨(hmem o).mpr ?_, ?_⟩, s, hs, hpart⟩
      · exact hall g List.mem_cons_self
      · exact fun g' hg' => hall g' (List.mem_cons_of_mem _ hg')

end Stored

/-- Text queries are exact. -/
theorem find_textual {q : Searcher} {field : Id} {d : FieldDef} {criterion : Criterion}
    (hobjects : (q.snapshot.table q.catalog.tables.objects).Valid KeyOrder.lexicographic)
    (hsearch : (q.snapshot.table q.catalog.tables.search).Valid KeyOrder.search)
    (hkeys : ∀ key, key ∈ (q.snapshot.table q.catalog.tables.search).entries.map Prod.fst ↔
      ObjectGraph.Derived q.catalog.schema (q.snapshot.table q.catalog.tables.objects).entries key)
    (hfield : q.catalog.indexedField field = .ok d) (htype : d.type = .string)
    (htextual : criterion.IsTextual)
    (hcutoff : ∀ text least, criterion = .similar text least →
      0 ≤ (least.getD q.catalog.config.cutoff).toFloat ∧
        (least.getD q.catalog.config.cutoff).toFloat ≤ 1) :
    ∃ hits, q.find field criterion = .ok hits ∧ hits.Pairwise (compare · · = .lt) ∧
      ∀ o, o ∈ hits ↔ ∃ s, q.Stores field o s ∧ criterion.Accepts q.catalog.config.cutoff s := by
  have hindexed : q.catalog.schema.isIndexed field := Rebuild.isIndexed_of_indexedField hfield
  have h : (q.snapshot.table q.catalog.tables.search).Lists q.Derived := by
    refine ⟨hsearch.order_eq, ⟨?_, hsearch.ascending⟩, hkeys⟩
    intro e he
    exact ((hkeys e.1).mp (List.mem_map_of_mem he)).indexable
  have hcheck : ¬ (criterion.IsTextual ∧ d.type ≠ .string) := by simp [htype]
  rw [find, hfield]
  simp only [bind, Except.bind, if_neg hcheck]
  cases criterion with
  | exact text =>
    refine (holding_spec h (by decide) (Utf8.encode text)).congr fun o => ?_
    rw [derived_normal_iff hindexed]
    refine exists_congr fun s => and_congr_right fun _ => ?_
    constructor
    · exact fun hencode => (Utf8.encode_injective hencode).symm
    · rintro rfl
      rfl
  | startsWith text =>
    refine (extending_spec h (by decide) (Utf8.encode text)).congr fun o => ?_
    simp only [derived_normal_iff hindexed]
    constructor
    · rintro ⟨_, ⟨s, hs, rfl⟩, hprefix⟩
      exact ⟨s, hs, Utf8.encode_prefix_iff.mp hprefix⟩
    · rintro ⟨s, hs, hprefix⟩
      exact ⟨_, ⟨s, hs, rfl⟩, Utf8.encode_prefix_iff.mpr hprefix⟩
  | endsWith text =>
    refine (extending_spec h (by decide) (Utf8.encode (reversed text))).congr fun o => ?_
    simp only [derived_reverse_iff hindexed]
    constructor
    · rintro ⟨_, ⟨s, hs, rfl⟩, hprefix⟩
      exact ⟨s, hs, encode_reversed_prefix_iff.mp hprefix⟩
    · rintro ⟨s, hs, hsuffix⟩
      exact ⟨_, ⟨s, hs, rfl⟩, encode_reversed_prefix_iff.mpr hsuffix⟩
  | contains text => exact containing_spec h hobjects hindexed text
  | similar text least =>
    have hpassing := passing_stored h hindexed fun s =>
      (least.getD q.catalog.config.cutoff).toFloat ≤ EditDistance.similarity s text
    simp only [similarTo, if_pos (hcutoff text least rfl)]
    refine hpassing.congr fun o => exists_congr fun s => and_congr_right fun _ => ?_
    exact decide_eq_true_iff
  | range min max => exact htextual.elim

theorem find_textual_notes :
    ∃ q : Searcher, ∃ text a : Id, ∃ long short : List Id,
      q.find text (.contains "bab") = .ok long ∧ long = [a] ∧
      (∀ o, o ∈ long ↔ ∃ s, q.Stores text o s ∧ "bab".toList <:+: s.toList) ∧
      q.find text (.contains "ba") = .ok short ∧ short = [a] ∧
      (∀ o, o ∈ short ↔ ∃ s, q.Stores text o s ∧ "ba".toList <:+: s.toList) := by
  let text := Id.ofNat 0x1001
  let a := Id.ofNat 1
  have hscript : ((SessionStep.script Schema.notes 10000 SessionStep.notes).toOption.map fun state =>
      ((state.1.search text (.contains "bab")).toOption, (state.1.search text (.contains "ba")).toOption,
        (state.1.catalog.indexedField text).toOption.map FieldDef.type)) =
      some (some [a], some [a], some .string) := by decide +kernel
  obtain ⟨state, hstate, hresults⟩ := Option.map_eq_some_iff.mp hscript
  simp only [Prod.mk.injEq] at hresults
  obtain ⟨hlong, hshort, htype⟩ := hresults
  cases hrun : SessionStep.script Schema.notes 10000 SessionStep.notes with
  | error e =>
    rw [hrun] at hstate
    cases hstate
  | ok state' =>
    rw [hrun] at hstate
    cases hstate
    obtain ⟨hdb, -⟩ := (Interleaved.of_script hrun).inStep rfl
    obtain ⟨objects, search, h⟩ := hdb.indexed
    rw [← Snapshot.table_eq h.objects_eq, ← Snapshot.table_eq h.search_eq] at h
    obtain ⟨d, hfield, hd⟩ := Option.map_eq_some_iff.mp htype
    have hfind (criterion : Criterion) (htextual : criterion.IsTextual)
        (hother : ∀ t least, criterion ≠ .similar t least) :=
      find_textual (q := ⟨state.1.store.committed, state.1.catalog⟩) h.valid
        ⟨h.lists.order_eq, h.lists.postings.ascending⟩ h.lists.mem_iff (ok_of_toOption hfield) hd
        htextual fun t least heq => absurd heq (hother t least)
    obtain ⟨long, hlong', -, hlongs⟩ := hfind (.contains "bab") trivial nofun
    obtain ⟨short, hshort', -, hshorts⟩ := hfind (.contains "ba") trivial nofun
    refine ⟨_, text, a, long, short, hlong', ?_, hlongs, hshort', ?_, hshorts⟩
    · exact Except.ok.inj (hlong'.symm.trans (ok_of_toOption hlong))
    · exact Except.ok.inj (hshort'.symm.trans (ok_of_toOption hshort))

end Searcher

end ObjectGraph

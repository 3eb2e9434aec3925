import ObjectGraph.Proofs.Search.Collapsing
import ObjectGraph.Proofs.Search.Scan
import ObjectGraph.Search.Rebuild

namespace ObjectGraph

namespace KeyEdit

variable {object field : Id} {raw : Bytes} {edit : IndexEdit} {k : IndexKey}

theorem edit_eq_of_mem_ofValue {e : KeyEdit} (h : e ∈ ofValue object field raw edit) : e.edit = edit := by
  rw [ofValue] at h
  split at h
  · contradiction
  · obtain ⟨_, -, rfl⟩ := List.mem_map.mp h
    rfl

theorem mem_map_ofValue : k ∈ (ofValue object field raw edit).map key ↔ Posts object field raw k.bytes := by
  rw [ofValue]
  cases hforms : indexForms raw with
  | error cause =>
    refine iff_of_false List.not_mem_nil ?_
    rintro ⟨v, content, hcontent, -⟩
    have hread : ∃ x, Value.decode raw = .ok x := by cases hcontent <;> exact ⟨_, ‹_›⟩
    obtain ⟨x, hx⟩ := hread
    rw [indexForms, hx] at hforms
    rcases x with _ | x
    · contradiction
    · cases x <;> contradiction
  | ok forms =>
    rw [List.map_map, List.mem_map]
    constructor
    · rintro ⟨⟨v, content⟩, hform, rfl⟩
      exact ⟨v, content, (contributes_iff hforms).mp hform, rfl⟩
    · rintro ⟨v, content, hcontent, hkey⟩
      exact ⟨(v, content), (contributes_iff hforms).mpr hcontent, (IndexKey.bytes_injective hkey).symm⟩

end KeyEdit

namespace Rebuild

variable {field object : Id} {raw : Bytes} {objects search table : Table} {t : TableId} {x x' : WriteTxn}

theorem mem_values : (object, raw) ∈ values objects field ↔
    ((Key.field object field).bytes, raw) ∈ objects.entries := by
  rw [values, List.mem_filterMap]
  constructor
  · rintro ⟨e, he, hvalue⟩
    split at hvalue
    next o f hkey =>
      by_cases hf : f = field
      · rw [if_pos hf] at hvalue
        cases hvalue
        rw [hf] at hkey
        rwa [← Key.bytes_eq_of_ofBytes? hkey]
      · rw [if_neg hf] at hvalue
        contradiction
    · contradiction
  · intro he
    refine ⟨_, he, ?_⟩
    rw [Key.ofBytes?_bytes]
    exact if_pos rfl

theorem length_values : (values objects field).length =
    (objects.entries.filter fun e => e.1.length = 32 ∧ e.1.drop 16 = field.bytes).length := by
  rw [values, List.length_filterMap_eq_countP, ← List.countP_eq_length_filter]
  congr 1
  funext e
  rw [Bool.eq_iff_iff, decide_eq_true_iff]
  cases hkey : Key.ofBytes? e.1 with
  | none =>
    refine iff_of_false Bool.false_ne_true ?_
    rintro ⟨hlength, -⟩
    obtain ⟨k, hk⟩ := Key.exists_bytes_eq (.inr (.inl hlength))
    rw [hk, k.ofBytes?_bytes] at hkey
    contradiction
  | some k =>
    rw [Key.bytes_eq_of_ofBytes? hkey]
    cases k with
    | object o =>
      refine iff_of_false Bool.false_ne_true fun h => ?_
      exact absurd ((Key.length_bytes (.object o)).symm.trans h.1) (show 16 ≠ 32 by decide)
    | field o f =>
      have hlength : (Key.field o f).bytes.length = 32 := Key.length_bytes _
      have hdrop : (Key.field o f).bytes.drop 16 = f.bytes := List.drop_left' o.length_bytes
      rw [hlength, hdrop]
      by_cases hf : f = field
      · simp [hf]
      · have hne : f.bytes ≠ field.bytes := fun h => hf (Id.bytes_injective h)
        simp [hf, hne]
    | association half =>
      refine iff_of_false Bool.false_ne_true fun h => ?_
      exact absurd ((Key.length_bytes (.association half)).symm.trans h.1) (show 64 ≠ 32 by decide)

theorem mem_staleOf (horder : search.order = KeyOrder.search) (h : Postings search.entries) {v : Variant}
    {k : IndexKey} : k.bytes ∈ staleOf search field v ↔
      k.bytes ∈ search.entries.map Prod.fst ∧ k.Is v field := by
  have hscalar : v = .scalar → IndexRank.Scalar [] := by
    intro _ tag payload h
    contradiction
  have hfirst (content : Bytes) :
      (compare (IndexRank.value v.tag []) (IndexRank.value v.tag content)).isLE := by
    cases v <;> cases content <;> rfl
  have hscope : (fun e : Entry => (IndexKey.ofBytes? e.1).any fun k => k.Is v field) =
      Searcher.inScope v field fun _ => .keep := by
    funext e
    simp [Searcher.inScope]
  -- nothing lies between the entries of a field, so the scan ends behind the last of them
  have hmem {e : Entry} : e ∈ (search.startingAt (IndexKey.seekKey v field [])).takeWhile
      (Searcher.inScope v field fun _ => .keep) ↔
        e ∈ search.entries ∧ Searcher.inScope v field (fun _ => .keep) e := by
    refine Searcher.mem_scope horder h hscalar ?_ ?_
    · exact fun content _ => hfirst content
    · exact fun _ _ _ _ hy => hy
  simp only [staleOf, hscope, List.mem_map, hmem]
  constructor
  · rintro ⟨e, ⟨he, hin⟩, hk⟩
    exact ⟨⟨e, he, hk⟩, ((Searcher.inScope_iff hk).mp hin).1⟩
  · rintro ⟨⟨e, he, hk⟩, his⟩
    exact ⟨e, ⟨he, (Searcher.inScope_iff hk).mpr ⟨his, by simp⟩⟩, hk⟩

theorem mem_stale (horder : search.order = KeyOrder.search) (h : Postings search.entries) {k : IndexKey} :
    k.bytes ∈ stale search field ↔ k.bytes ∈ search.entries.map Prod.fst ∧ ∃ v, k.Is v field := by
  rw [stale, List.mem_flatMap]
  constructor
  · rintro ⟨v, -, hk⟩
    obtain ⟨hk, his⟩ := (mem_staleOf horder h).mp hk
    exact ⟨hk, v, his⟩
  · rintro ⟨hk, v, his⟩
    exact ⟨v, by cases v <;> decide, (mem_staleOf horder h).mpr ⟨hk, his⟩⟩

theorem stale_subset : stale search field ⊆ search.entries.map Prod.fst := by
  intro key hkey
  obtain ⟨v, -, hkey⟩ := List.mem_flatMap.mp hkey
  obtain ⟨e, he, rfl⟩ := List.mem_map.mp hkey
  exact List.mem_map_of_mem ((List.dropWhile_sublist _).subset ((List.takeWhile_prefix _).subset he))

theorem replaces_of_deletes {ks : List Bytes} (hks : ∀ key ∈ ks, Indexable key)
    (ht : x.working.tables[t]? = some table) (horder : table.order = KeyOrder.search)
    (h : Postings table.entries)
    (hdeletes : ks.foldlM (fun w key => return (← w.delete t key).2) x = .ok x') :
    ∃ entries, x.Replaces t entries x' ∧ Postings entries ∧
      ∀ (k : IndexKey) v, (k.bytes, v) ∈ entries ↔ (k.bytes, v) ∈ table.entries ∧ k.bytes ∉ ks := by
  have hrange : ks ∈ Set.range (List.map IndexKey.bytes) := by
    rw [Set.range_list_map]
    intro key hkey
    obtain ⟨k, rfl, -⟩ := hks key hkey
    exact ⟨k, rfl⟩
  obtain ⟨keys, rfl⟩ := hrange
  let es : List KeyEdit := keys.map (KeyEdit.mk .remove)
  have hwrites : es.foldlM (KeyEdit.write t) x = .ok x' := by
    rw [List.foldlM_map] at hdeletes ⊢
    exact hdeletes
  have hes : ∀ e ∈ es, Indexable e.key.bytes := by
    intro e he
    obtain ⟨k, hk, rfl⟩ := List.mem_map.mp he
    exact hks _ (List.mem_map_of_mem hk)
  have hremoves : ∀ e ∈ es, e.edit = .remove := by
    intro e he
    obtain ⟨k, -, rfl⟩ := List.mem_map.mp he
    rfl
  have hkeys : es.map KeyEdit.key = keys := by simp [es, Function.comp_def]
  obtain ⟨hpostings, hmem⟩ := KeyEdit.postings_foldl h hes
  refine ⟨_, KeyEdit.replaces_of_writes ht horder hwrites, hpostings, fun k v => ?_⟩
  rw [hmem, KeyEdit.last?_of_forall hremoves, hkeys,
    List.mem_map_of_injective fun _ _ => IndexKey.bytes_injective]
  by_cases hk : k ∈ keys <;> simp [hk]

theorem deletes_of_removes {ks : List Bytes} (h : (ks.forM (remove t)).run x = (.ok ⟨⟩, x')) :
    ks.foldlM (fun w key => return (← w.delete t key).2) x = .ok x' := by
  induction ks generalizing x with
  | nil =>
    cases h
    rfl
  | cons key ks ih =>
    obtain ⟨⟨⟩, y, hremove, hrest⟩ := Stateful.run_bind_eq_ok.mp h
    obtain ⟨⟨found, _⟩, hdelete, hset⟩ := Stateful.run_ofExcept_bind_eq_ok.mp hremove
    cases hset
    rw [List.foldlM_cons, hdelete]
    exact ih hrest

def Posted (objects : List Entry) (field : Id) (key : Bytes) : Prop :=
  ∃ object raw, ((Key.field object field).bytes, raw) ∈ objects ∧ Posts object field raw key

def Refills (objects : List Entry) (field : Id) (before after : List Entry) : Prop :=
  ∀ (k : IndexKey) bytes, (k.bytes, bytes) ∈ after ↔ Posted objects field k.bytes ∧ bytes = [] ∨
    ¬ Posted objects field k.bytes ∧ (k.bytes, bytes) ∈ before ∧ ¬ ∃ v, k.Is v field

theorem replaces_of_posts {i j i' : Indexer} {n : Nat} (hclean : i.Clean)
    (hstaged : ((values objects field).forM fun (o, raw) => Indexer.stageValue o field raw .insert).run i =
      (.ok ⟨⟩, j)) (ht : x.working.tables[t]? = some table) (horder : table.order = KeyOrder.search)
    (h : Postings table.entries) (hflush : j.flush t x = .ok (n, x', i')) :
    ∃ entries, x.Replaces t entries x' ∧ Postings entries ∧ ∀ (k : IndexKey) v, (k.bytes, v) ∈ entries ↔
      Posted objects.entries field k.bytes ∧ v = [] ∨
        ¬ Posted objects.entries field k.bytes ∧ (k.bytes, v) ∈ table.entries := by
  let calls : List IndexerCall := (values objects field).map fun (o, raw) => .stageValue o field raw .insert
  have hperform : calls.forM (IndexerCall.perform .builtin) =
      (values objects field).forM fun (o, raw) => Indexer.stageValue o field raw .insert := List.forM_map ..
  let es := calls.flatMap (IndexerCall.edits .builtin)
  obtain ⟨hstages, hes⟩ := Indexer.stages_of_performs ((congrArg (·.run i) hperform).trans hstaged)
  have hcollapses : j.Collapses es := Indexer.collapses_of_stages hclean.collapses hstages
  have hinserts : ∀ e ∈ es, e.edit = .insert := by
    intro e he
    obtain ⟨_, hcall, he⟩ := List.mem_flatMap.mp he
    obtain ⟨p, -, rfl⟩ := List.mem_map.mp hcall
    exact KeyEdit.edit_eq_of_mem_ofValue he
  have hkeys (k : IndexKey) : k ∈ es.map KeyEdit.key ↔ Posted objects.entries field k.bytes := by
    simp only [es, calls, List.map_flatMap, List.mem_flatMap, List.mem_map]
    constructor
    · rintro ⟨_, ⟨⟨object, raw⟩, hvalue, rfl⟩, hk⟩
      exact ⟨object, raw, mem_values.mp hvalue, KeyEdit.mem_map_ofValue.mp (List.mem_map.mpr hk)⟩
    · rintro ⟨object, raw, hvalue, hposts⟩
      exact ⟨_, ⟨(object, raw), mem_values.mpr hvalue, rfl⟩,
        List.mem_map.mp (KeyEdit.mem_map_ofValue.mpr hposts)⟩
  obtain ⟨hpostings, hmem⟩ := KeyEdit.postings_foldl h hes
  refine ⟨_, hcollapses.replaces_of_flush hes ht horder h hflush, hpostings, fun k v => ?_⟩
  rw [hmem, KeyEdit.last?_of_forall hinserts, ← hkeys]
  by_cases hk : k ∈ es.map KeyEdit.key <;> simp [hk]

theorem isIndexed_of_indexedField {c : Catalog} {d : FieldDef} (h : c.indexedField field = .ok d) :
    c.schema.isIndexed field := by
  rw [Catalog.indexedField] at h
  split at h
  · contradiction
  next d' hd' =>
    rw [Schema.isIndexed, hd']
    by_cases hindexed : d'.indexed
    · exact hindexed
    · rw [if_neg hindexed] at h
      contradiction

theorem stages_of_run {c : Catalog} {n : Nat} (hrun : (run c field).run x = (.ok n, x')) :
    c.schema.isIndexed field ∧ ∃ search objects y i j m k,
      x.working.tables[c.tables.search]? = some search ∧
      x.working.tables[c.tables.objects]? = some objects ∧ n = (values objects field).length ∧
      (stale search field).foldlM (fun w key => return (← w.delete c.tables.search key).2) x = .ok y ∧
      Indexer.create c.config.arenaCapacity c.config.pageSize = .ok i ∧
      ((values objects field).forM fun (o, raw) => Indexer.stageValue o field raw .insert).run i =
        (.ok ⟨⟩, j) ∧
      j.flush c.tables.search y = .ok (m, x', k) := by
  obtain ⟨d, hd, hrun⟩ := Stateful.run_ofExcept_bind_eq_ok.mp hrun
  obtain ⟨search, hsearch, hrun⟩ := Stateful.run_ofExcept_bind_eq_ok.mp hrun
  obtain ⟨objects, hobjects, hrun⟩ := Stateful.run_ofExcept_bind_eq_ok.mp hrun
  obtain ⟨⟨⟩, y, hremoves, hrun⟩ := Stateful.run_bind_eq_ok.mp hrun
  obtain ⟨i, hi, hrun⟩ := Stateful.run_ofExcept_bind_eq_ok.mp hrun
  obtain ⟨⟨⟩, hstaged, hrun⟩ := Stateful.run_ofExcept_bind_eq_ok.mp hrun
  obtain ⟨⟨m, _, k⟩, hflush, hend⟩ := Stateful.run_ofExcept_bind_eq_ok.mp hrun
  cases hend
  exact ⟨isIndexed_of_indexedField hd, search, objects, y, i, _, m, k,
    Snapshot.table?_eq_ok_iff.mp hsearch, Snapshot.table?_eq_ok_iff.mp hobjects, rfl,
    deletes_of_removes hremoves, hi, Prod.ext hstaged rfl, hflush⟩

theorem run_eq_ok {c : Catalog} {n : Nat} (hobjects : x.working.tables[c.tables.objects]? = some objects)
    (hsearch : x.working.tables[c.tables.search]? = some search) (horder : search.order = KeyOrder.search)
    (h : Postings search.entries) (hrun : (run c field).run x = (.ok n, x')) :
    c.schema.isIndexed field ∧ n = (values objects field).length ∧
      ∃ entries, x.Replaces c.tables.search entries x' ∧ Postings entries ∧
        Refills objects.entries field search.entries entries := by
  obtain ⟨hindexed, _, _, y, i, j, m, _, hsearch', hobjects', hn, hdeletes, hi, hstaged, hflush⟩ :=
    stages_of_run hrun
  cases hsearch.symm.trans hsearch'
  cases hobjects.symm.trans hobjects'
  have hindexable : ∀ key ∈ stale search field, Indexable key := by
    intro key hkey
    obtain ⟨e, he, rfl⟩ := List.mem_map.mp (stale_subset hkey)
    exact h.indexable e he
  obtain ⟨kept, hdeleted, hpostings, hkept⟩ := replaces_of_deletes hindexable hsearch horder h hdeletes
  obtain ⟨entries, hposted, hpostings', hmem⟩ := replaces_of_posts (.of_create hi) hstaged
    (hdeleted.getElem?_self hsearch) horder hpostings hflush
  refine ⟨hindexed, hn, entries, hdeleted.trans hposted, hpostings', fun k v => ?_⟩
  have hstale (hk : (k.bytes, v) ∈ search.entries) :
      k.bytes ∈ stale search field ↔ ∃ variant, k.Is variant field := by
    rw [mem_stale horder h, and_iff_right (List.mem_map_of_mem hk)]
  rw [hmem]
  change _ ∨ _ ∧ (k.bytes, v) ∈ kept ↔ _
  rw [hkept, and_congr_right fun hk => not_congr (hstale hk)]

theorem frame_of_run {c : Catalog} {n : Nat} (hrun : (run c field).run x = (.ok n, x')) :
    WriteTxn.Frame (· = c.tables.search) x x' := by
  obtain ⟨-, _, _, y, _, j, _, _, -, -, -, hdeletes, -, -, hflush⟩ := stages_of_run hrun
  refine (WriteTxn.Frame.foldlM ?_ hdeletes).trans (Indexer.frame_of_flush hflush)
  intro z key z' hstep
  obtain ⟨⟨found, _⟩, hdelete, hend⟩ := Stateful.bind_eq_ok.mp hstep
  cases hend
  exact WriteTxn.frame_of_delete hdelete

theorem lists_derived {c : Catalog} {n : Nat} (hdistinct : c.tables.objects ≠ c.tables.search)
    (hobjects : x.working.tables[c.tables.objects]? = some objects)
    (hsearch : x.working.tables[c.tables.search]? = some search)
    (h : search.Lists (Derived c.schema objects.entries)) (hrun : (run c field).run x = (.ok n, x')) :
    x'.working.tables[c.tables.objects]? = some objects ∧
      ∃ search', x'.working.tables[c.tables.search]? = some search' ∧
        search'.Lists (Derived c.schema objects.entries) := by
  obtain ⟨hindexed, -, entries, hreplaces, hpostings, hmem⟩ :=
    run_eq_ok hobjects hsearch h.order_eq h.postings hrun
  refine ⟨(hreplaces.getElem?_ne hdistinct).trans hobjects, _, hreplaces.getElem?_self hsearch,
    h.order_eq, hpostings, fun key => ?_⟩
  change key ∈ entries.map Prod.fst ↔ _
  constructor
  · intro hkey
    obtain ⟨⟨_, v⟩, he, rfl⟩ := List.mem_map.mp hkey
    obtain ⟨k, rfl, -⟩ := hpostings.indexable _ he
    rcases (hmem k v).mp he with ⟨⟨object, raw, hvalue, hposts⟩, -⟩ | ⟨-, he, -⟩
    · exact ⟨object, field, raw, hvalue, hindexed, hposts⟩
    · exact (h.mem_iff k.bytes).mp (List.mem_map_of_mem he)
  · intro hderived
    obtain ⟨k, rfl, -⟩ := hderived.indexable
    by_cases hposted : Posted objects.entries field k.bytes
    · exact List.mem_map_of_mem ((hmem k []).mpr (.inl ⟨hposted, rfl⟩))
    · obtain ⟨⟨key, v⟩, he, hkey⟩ := List.mem_map.mp ((h.mem_iff _).mpr hderived)
      obtain rfl : key = k.bytes := hkey
      refine List.mem_map_of_mem ((hmem k v).mpr (.inr ⟨hposted, he, ?_⟩))
      rintro ⟨variant, -, rfl⟩
      obtain ⟨object, field, raw, hvalue, -, hposts⟩ := hderived
      obtain ⟨v', content, hcontent, hk⟩ := hposts
      cases IndexKey.bytes_injective hk
      exact hposted ⟨object, raw, hvalue, v', content, hcontent, rfl⟩

end Rebuild

end ObjectGraph

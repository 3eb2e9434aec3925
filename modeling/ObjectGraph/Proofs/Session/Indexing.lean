import ObjectGraph.Proofs.Search.Upkeep
import ObjectGraph.Proofs.Session.Publish

namespace ObjectGraph

open Stateful (Triple)

namespace Recorders

def Has (P : Indexer → Prop) (r : Recorders) : Prop := ∃ i, r.indexer = some i ∧ P i

variable {P Q E : Indexer → Prop} {schema : Schema} {c : Change}

theorem Has.mono {r : Recorders} (h : r.Has P) (hPQ : ∀ i, P i → Q i) : r.Has Q := by
  obtain ⟨i, hi, hP⟩ := h
  exact ⟨i, hi, hPQ i hP⟩

section Observe

variable {A B : Recorders → Prop} {F : Error → Recorders → Prop}

theorem observeDraft_spec (hnone : ∀ indexer, A ⟨none, indexer⟩ → B ⟨none, indexer⟩)
    (hsome : ∀ d indexer, A ⟨some d, indexer⟩ → Triple (· = d) (Draft.observe c)
      (fun _ d' => B ⟨some d', indexer⟩) (fun e d' => F e ⟨some d', indexer⟩)) :
    Triple A (observeDraft c) (fun _ => B) F := by
  rintro ⟨draft, indexer⟩ hr
  cases draft with
  | none => exact hnone indexer hr
  | some d =>
    have hobserve := hsome d indexer hr d rfl
    have hrun : (observeDraft c).run ⟨some d, indexer⟩ =
      (((Draft.observe c).run d).1, ⟨some ((Draft.observe c).run d).2, indexer⟩) := rfl
    rw [hrun]
    rcases hresult : (Draft.observe c).run d with ⟨e | a, d'⟩
    · rwa [hresult] at hobserve
    · rwa [hresult] at hobserve

theorem observeIndex_spec (hnone : ∀ draft, A ⟨draft, none⟩ → B ⟨draft, none⟩)
    (hsome : ∀ draft i, A ⟨draft, some i⟩ → Triple (· = i) (Indexer.observe schema c)
      (fun _ i' => B ⟨draft, some i'⟩) (fun e i' => F e ⟨draft, some i'⟩)) :
    Triple A (observeIndex schema c) (fun _ => B) F := by
  rintro ⟨draft, indexer⟩ hr
  cases indexer with
  | none => exact hnone draft hr
  | some i =>
    have hobserve := hsome draft i hr i rfl
    have hrun : (observeIndex schema c).run ⟨draft, some i⟩ =
      (((Indexer.observe schema c).run i).1, ⟨draft, some ((Indexer.observe schema c).run i).2⟩) := rfl
    rw [hrun]
    rcases hresult : (Indexer.observe schema c).run i with ⟨e | a, i'⟩
    · rwa [hresult] at hobserve
    · rwa [hresult] at hobserve

end Observe

theorem observeDraft_triple (c : Change) :
    Triple (Has P) (observeDraft c) (fun _ => Has P) (fun _ => Has P) := by
  apply observeDraft_spec
  · exact fun _ h => h
  · rintro _ indexer ⟨i, hi⟩ d rfl
    rcases (Draft.observe c).run d with ⟨e | a, d'⟩
    · exact ⟨i, hi⟩
    · exact ⟨i, hi⟩

theorem observeIndex_triple (h : Triple P (Indexer.observe schema c) (fun _ => Q) (fun _ => E)) :
    Triple (Has P) (observeIndex schema c) (fun _ => Has Q) (fun _ => Has E) := by
  apply observeIndex_spec
  · rintro _ ⟨_, hi, -⟩
    contradiction
  · rintro draft _ ⟨i, ⟨⟩, hi⟩
    apply h.mono
    · rintro _ rfl
      exact hi
    · exact fun _ i' hi' => ⟨i', rfl, hi'⟩
    · exact fun _ i' hi' => ⟨i', rfl, hi'⟩

end Recorders

namespace Replay

theorem announce_triple {σ : Type} {observer : Observer σ} {c : Change} {A : WriteTxn → Prop}
    {P Q : σ → Prop} {E : Error → σ → Prop} (h : Triple P (observer c) (fun _ => Q) E) :
    Triple (fun xs => A xs.1 ∧ P xs.2) (announce observer c) (fun _ xs => A xs.1 ∧ Q xs.2)
      (fun e xs => E e xs.2) := by
  rintro ⟨x, s⟩ ⟨hx, hs⟩
  have hobserve := h s hs
  rw [announce_run]
  rcases hresult : (observer c).run s with ⟨e | a, s'⟩
  · rw [hresult] at hobserve
    exact hobserve
  · rw [hresult] at hobserve
    exact ⟨hx, hobserve⟩

structure Follows (c : Catalog) (search : Table) (keys : Bytes → Prop) (objects : Table)
    (xs : WriteTxn × Recorders) : Prop where
  objects_eq : xs.1.working.tables[c.tables.objects]? = some objects
  search_eq : xs.1.working.tables[c.tables.search]? = some search
  valid : objects.Valid KeyOrder.lexicographic
  valued : Valued c.schema objects.entries
  indexer : xs.2.Has (Indexer.Turns keys (Derived c.schema objects.entries))

variable {c : Catalog} {search objects : Table} {keys : Bytes → Prop} {e : Entry}

theorem Follows.marking {xs : WriteTxn × Recorders} (h : Follows c search keys objects xs) :
    xs.2.Has Indexer.Marking := h.indexer.mono fun _ hi => hi.marking

def Awaits (schema : Schema) (keys : Bytes → Prop) (current : List Entry) : Recorders → Prop :=
  Recorders.Has fun i => i.Turns keys (Derived schema current) ∧ Valued schema current

theorem observers_triple {x : WriteTxn} (hvalid : objects.Valid KeyOrder.lexicographic)
    (hvalued : Valued c.schema objects.entries) (hfilled : Staged.Filled e) :
    Triple (fun xs => xs.1 = x ∧ xs.2.Has (Indexer.Turns keys (Derived c.schema objects.entries)))
      ([Recorders.observeDraft, Recorders.observeIndex c.schema].forM
        (announce · (changeOf objects e)))
      (fun _ xs => xs.1 = x ∧
        Awaits c.schema keys (Staged.apply KeyOrder.lexicographic objects.entries e) xs.2)
      (fun _ xs => xs.2.Has Indexer.Marking) := by
  have hdraft := announce_triple (A := (· = x)) (Recorders.observeDraft_triple
    (P := Indexer.Turns keys (Derived c.schema objects.entries)) (changeOf objects e))
  have hobserve : Triple (Indexer.Turns keys (Derived c.schema objects.entries)) _ _ _ :=
    Indexer.observe_entry_triple hvalid hvalued hfilled
  have hindex := announce_triple (A := (· = x)) (Recorders.observeIndex_triple hobserve)
  apply Triple.bind
  · refine hdraft.mono (fun _ h => h) (fun _ _ h => h) ?_
    exact fun _ _ hr => hr.mono fun _ hi => hi.marking
  · exact fun _ => Triple.bind_pure hindex

theorem write_triple (hdistinct : c.tables.Distinct) {x : WriteTxn}
    (hobjects : x.working.tables[c.tables.objects]? = some objects)
    (hsearch : x.working.tables[c.tables.search]? = some search)
    (hvalid : objects.Valid KeyOrder.lexicographic) :
    Triple (fun xs => xs.1 = x ∧
        Awaits c.schema keys (Staged.apply KeyOrder.lexicographic objects.entries e) xs.2)
      (write c.tables.objects (changeOf objects e))
      (fun _ xs => ∃ objects', Follows c search keys objects' xs)
      (fun _ xs => xs.2.Has Indexer.Marking) := by
  apply Triple.intro
  · rintro ⟨_, r⟩ ⟨⟩ ⟨y, r'⟩ ⟨rfl, i, hi, hturns, hvalued⟩ hrun
    obtain ⟨rfl, hreplaces⟩ := write_eq_ok hobjects hrun
    have hwritten : WriteTxn.Replaces c.tables.objects
      (Staged.apply objects.order objects.entries e) _ y := hreplaces
    rw [hvalid.order_eq] at hwritten
    refine ⟨_, hwritten.getElem?_self hobjects, ?_, ?_, hvalued, i, hi, hturns⟩
    · rw [hwritten.getElem?_ne hdistinct.objects_ne_search.symm]
      exact hsearch
    · exact ⟨hvalid.order_eq, Staged.ascending_apply hvalid.ascending⟩
  · rintro ⟨_, r⟩ error ⟨y, r'⟩ ⟨rfl, hr⟩ hrun
    obtain ⟨-, rfl, -⟩ := write_error hobjects hrun
    exact hr.mono fun _ hi => hi.1.marking

theorem entry_triple (hdistinct : c.tables.Distinct) (hfilled : Staged.Filled e) :
    Triple (Follows c search keys objects)
      (entry c.tables.objects [Recorders.observeDraft, Recorders.observeIndex c.schema] e)
      (fun _ xs => ∃ objects', Follows c search keys objects' xs)
      (fun _ xs => xs.2.Has Indexer.Marking) := by
  rintro ⟨x, r⟩ h
  rw [entry_run h.objects_eq]
  refine Triple.bind (observers_triple h.valid h.valued hfilled) ?_ (x, r) ⟨rfl, h.indexer⟩
  intro _
  exact write_triple hdistinct h.objects_eq h.search_eq h.valid

theorem entries_triple (hdistinct : c.tables.Distinct) {es : List Entry}
    (hfilled : ∀ e ∈ es, Staged.Filled e) :
    Triple (fun xs => ∃ objects, Follows c search keys objects xs)
      (es.forM (entry c.tables.objects [Recorders.observeDraft, Recorders.observeIndex c.schema]))
      (fun _ xs => ∃ objects, Follows c search keys objects xs)
      (fun _ xs => xs.2.Has Indexer.Marking) := by
  induction es with
  | nil => exact Triple.pure fun _ hxs => hxs
  | cons e es ih =>
    apply Triple.bind
    · rintro xs ⟨objects, hxs⟩
      exact entry_triple hdistinct (hfilled e List.mem_cons_self) xs hxs
    · exact fun _ => ih fun a ha => hfilled a (List.mem_cons_of_mem _ ha)

end Replay

structure Snapshot.Indexed (c : Catalog) (objects search : Table) (s : Snapshot) : Prop where
  objects_eq : s.tables[c.tables.objects]? = some objects
  search_eq : s.tables[c.tables.search]? = some search
  valid : objects.Valid KeyOrder.lexicographic
  valued : Valued c.schema objects.entries
  lists : search.Lists (Derived c.schema objects.entries)

namespace Recorders

variable {c : Catalog} {objects search : Table} {keys : Bytes → Prop} {commit : CommitId}

theorem has_of_start {r r' : Recorders} {actor : Id} (h : r.Has Indexer.Marking)
    (hstart : r.start commit actor = .ok r') : r'.Has (Indexer.Turns keys keys) := by
  obtain ⟨i, hi, hmarking⟩ := h
  obtain ⟨draft, -, hstart⟩ := Stateful.bind_eq_ok.mp hstart
  cases hstart
  exact ⟨i.reset, by rw [hi]; rfl, hmarking.reset keys⟩

theorem storeRecord_triple (hdistinct : c.tables.Distinct) :
    Triple (fun xs => ∃ objects, Replay.Follows c search keys objects xs)
      (storeRecord c.tables commit)
      (fun _ xs => ∃ objects, Replay.Follows c search keys objects xs)
      (fun _ xs => xs.2.Has Indexer.Marking) := by
  apply Triple.intro
  · rintro ⟨x, r⟩ ⟨⟩ ⟨x', r'⟩ ⟨objects, h⟩ hrun
    obtain ⟨rfl, -⟩ := storeRecord_eq_ok hrun
    have hframe := frame_of_storeRecord hrun
    refine ⟨objects, ?_, ?_, h.valid, h.valued, h.indexer⟩
    · rw [hframe.getElem?_eq _
        (not_or.mpr ⟨hdistinct.objects_ne_history, hdistinct.objects_ne_historyByObject⟩)]
      exact h.objects_eq
    · rw [hframe.getElem?_eq _
        (not_or.mpr ⟨hdistinct.search_ne_history, hdistinct.search_ne_historyByObject⟩)]
      exact h.search_eq
  · rintro ⟨x, draft, indexer⟩ e ⟨x', r'⟩ ⟨objects, h⟩ hrun
    cases draft with
    | none => cases hrun
    | some d =>
      simp only [storeRecord, Stateful.run_bind, Stateful.run_get, Stateful.run_ofExcept] at hrun
      cases hstore : d.store c.tables commit x with
      | error e =>
        rw [hstore] at hrun
        cases hrun
        exact h.marking
      | ok y =>
        rw [hstore] at hrun
        cases hrun

theorem flushIndex_triple (hdistinct : c.tables.Distinct) (hsearch : search.Lists keys) :
    Triple (fun xs => ∃ objects, Replay.Follows c search keys objects xs) (flushIndex c.tables)
      (fun _ xs => (∃ objects search, xs.1.working.Indexed c objects search) ∧
        xs.2.Has Indexer.Marking)
      (fun _ xs => xs.2.Has Indexer.Marking) := by
  rintro ⟨x, draft, _⟩ ⟨objects, h⟩
  obtain ⟨i, rfl, hi⟩ := h.indexer
  have hrun : (flushIndex c.tables).run (x, ⟨draft, some i⟩) =
      ((i.flush c.tables.search x).map fun _ => ⟨⟩,
        match i.flush c.tables.search x with
        | .ok (_, x', i') => (x', ⟨draft, some i'⟩)
        | .error _ => (x, ⟨draft, some i⟩)) := by
    simp only [flushIndex, Stateful.run_bind, Stateful.run_get, Stateful.run_ofExcept]
    cases i.flush c.tables.search x <;> rfl
  rw [hrun]
  cases hflush : i.flush c.tables.search x with
  | error e => exact h.marking
  | ok flushed =>
    obtain ⟨n, x', i'⟩ := flushed
    obtain ⟨search', hsearch', hlists⟩ := Indexer.lists_of_flush hi h.search_eq hsearch hflush
    have hobjects : x'.working.tables[c.tables.objects]? = some objects := by
      rw [(Indexer.frame_of_flush hflush).getElem?_eq _ hdistinct.objects_ne_search]
      exact h.objects_eq
    obtain ⟨-, -, rfl⟩ := Indexer.flush_eq_ok hflush
    exact ⟨⟨objects, search', hobjects, hsearch', h.valid, h.valued, hlists⟩, i.reset, rfl, hi.marking⟩

end Recorders

theorem Session.publish_triple {s : Session} {commit : CommitId} {objects search : Table}
    (hdistinct : s.catalog.tables.Distinct)
    (hfilled : ∀ e ∈ s.workspace.overlay.entries, Staged.Filled e) :
    Triple (fun xs => xs.1.working.Indexed s.catalog objects search ∧ xs.2.Has Indexer.Marking)
      (s.publish commit)
      (fun _ xs => (∃ objects search, xs.1.working.Indexed s.catalog objects search) ∧
        xs.2.Has Indexer.Marking)
      (fun _ xs => xs.2.Has Indexer.Marking) := by
  apply Triple.get_bind
  rintro ⟨x, r⟩ ⟨h, hr⟩
  apply Triple.ofExcept_bind ?_ fun _ _ hxs _ => hxs ▸ hr
  intro r' hstart
  apply Triple.bind (Q := fun _ xs => ∃ current,
    Replay.Follows s.catalog search (Derived s.catalog.schema objects.entries) current xs)
  · rintro _ rfl
    exact ⟨objects, h.objects_eq, h.search_eq, h.valid, h.valued, Recorders.has_of_start hr hstart⟩
  intro _
  apply Triple.bind (Triple.discard (Triple.bind_pure (Replay.entries_triple hdistinct hfilled)))
  intro _
  apply Triple.bind ((Recorders.storeRecord_triple hdistinct).mono _ (fun _ _ h => h) fun _ _ h => h)
  · exact fun _ => Recorders.flushIndex_triple hdistinct h.lists
  · exact fun xs ⟨_, hxs⟩ => hxs

end ObjectGraph

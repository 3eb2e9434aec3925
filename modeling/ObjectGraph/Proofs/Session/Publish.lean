import ObjectGraph.Proofs.Search.Upkeep
import ObjectGraph.Session.Publish

namespace ObjectGraph

open Stateful

structure Tables.Distinct (t : Tables) : Prop where
  objects_ne_history : t.objects ≠ t.history
  objects_ne_historyByObject : t.objects ≠ t.historyByObject
  objects_ne_search : t.objects ≠ t.search
  search_ne_history : t.search ≠ t.history
  search_ne_historyByObject : t.search ≠ t.historyByObject
  history_ne_historyByObject : t.history ≠ t.historyByObject

variable {t : Tables} {c : CommitId} {x x' : WriteTxn} {r r' : Recorders}

theorem Draft.frame_of_store {d : Draft} (h : d.store t c x = .ok x') :
    WriteTxn.Frame (fun u => u = t.history ∨ u = t.historyByObject) x x' := by
  rw [store] at h
  split at h
  · cases h
    exact .refl _ _
  · obtain ⟨_, -, h⟩ := bind_eq_ok.mp h
    obtain ⟨y, hput, hputs⟩ := bind_eq_ok.mp h
    have hhistory : WriteTxn.Frame (· = t.history) x y := WriteTxn.frame_of_put hput
    have hbyObject : WriteTxn.Frame (· = t.historyByObject) y x' :=
      WriteTxn.Frame.foldlM (fun _ _ _ => WriteTxn.frame_of_put) hputs
    exact (hhistory.mono fun _ => Or.inl).trans (hbyObject.mono fun _ => Or.inr)

namespace Recorders

theorem storeRecord_eq_ok (h : (storeRecord t c).run (x, r) = (.ok ⟨⟩, x', r')) :
    r' = r ∧ match r.draft with
      | none => x' = x
      | some d => d.store t c x = .ok x' := by
  obtain ⟨draft, indexer⟩ := r
  cases draft with
  | none =>
    cases h
    exact ⟨rfl, rfl⟩
  | some d =>
    simp only [storeRecord, run_bind, run_get, run_ofExcept] at h
    cases hstore : d.store t c x with
    | error e =>
      rw [hstore] at h
      cases h
    | ok y =>
      rw [hstore] at h
      cases h
      exact ⟨rfl, hstore⟩

theorem frame_of_storeRecord (h : (storeRecord t c).run (x, r) = (.ok ⟨⟩, x', r')) :
    WriteTxn.Frame (fun u => u = t.history ∨ u = t.historyByObject) x x' := by
  obtain ⟨-, hstore⟩ := storeRecord_eq_ok h
  split at hstore
  · rw [hstore]
    exact .refl _ _
  · exact Draft.frame_of_store hstore

theorem flushIndex_eq_ok (h : (flushIndex t).run (x, r) = (.ok ⟨⟩, x', r')) :
    match r.indexer with
    | none => x' = x
    | some i => ∃ n i', i.flush t.search x = .ok (n, x', i') := by
  obtain ⟨draft, indexer⟩ := r
  cases indexer with
  | none =>
    cases h
    rfl
  | some i =>
    simp only [flushIndex, run_bind, run_get, run_ofExcept] at h
    cases hflush : i.flush t.search x with
    | error e =>
      rw [hflush] at h
      cases h
    | ok flushed =>
      rw [hflush] at h
      cases h
      exact ⟨_, _, hflush⟩

theorem frame_of_flushIndex (h : (flushIndex t).run (x, r) = (.ok ⟨⟩, x', r')) :
    WriteTxn.Frame (· = t.search) x x' := by
  have hflush := flushIndex_eq_ok h
  split at hflush
  · rw [hflush]
    exact .refl _ _
  · obtain ⟨n, i', hflush⟩ := hflush
    exact Indexer.frame_of_flush hflush

end Recorders

namespace Session

variable {s : Session}

def observers (s : Session) : List (Observer Recorders) :=
  [Recorders.observeDraft, Recorders.observeIndex s.catalog.schema]

theorem publish_eq_ok (h : (s.publish c).run (x, r) = (.ok ⟨⟩, x', r')) :
    ∃ r₁ n y r₂ z, r.start c s.actor = .ok r₁ ∧
      (s.workspace.replay s.catalog.tables.objects s.observers).run (x, r₁) = (.ok n, y, r₂) ∧
      (Recorders.storeRecord s.catalog.tables c).run (y, r₂) = (.ok ⟨⟩, z, r₂) ∧
      (Recorders.flushIndex s.catalog.tables).run (z, r₂) = (.ok ⟨⟩, x', r') := by
  obtain ⟨_, _, hget, h⟩ := run_bind_eq_ok.mp h
  cases hget
  obtain ⟨r₁, hstart, h⟩ := run_ofExcept_bind_eq_ok.mp h
  obtain ⟨_, _, hset, h⟩ := run_bind_eq_ok.mp h
  cases hset
  obtain ⟨_, ⟨y, r₂⟩, hreplay, h⟩ := run_bind_eq_ok.mp h
  obtain ⟨n, hreplay⟩ := run_discard_eq_ok.mp hreplay
  obtain ⟨_, ⟨z, r₃⟩, hstore, hflush⟩ := run_bind_eq_ok.mp h
  obtain ⟨rfl, -⟩ := Recorders.storeRecord_eq_ok hstore
  exact ⟨r₁, n, y, r₃, z, hstart, hreplay, hstore, hflush⟩

theorem objects_of_publish (h : (s.publish c).run (x, r) = (.ok ⟨⟩, x', r'))
    (hdistinct : s.catalog.tables.Distinct) {table : Table}
    (ht : x.working.tables[s.catalog.tables.objects]? = some table) :
    x'.working.tables[s.catalog.tables.objects]? =
      some (table.withEntries (Staged.override table.order table.entries s.workspace.overlay.entries)) := by
  obtain ⟨r₁, n, y, r₂, z, -, hreplay, hstore, hflush⟩ := publish_eq_ok h
  obtain ⟨-, -, hreplaces⟩ := Workspace.replay_eq_ok ht hreplay
  rw [(Recorders.frame_of_flushIndex hflush).getElem?_eq _ hdistinct.objects_ne_search,
    (Recorders.frame_of_storeRecord hstore).getElem?_eq _
      (not_or.mpr ⟨hdistinct.objects_ne_history, hdistinct.objects_ne_historyByObject⟩),
    hreplaces.getElem?_self ht]

theorem names_of_publish (h : (s.publish c).run (x, r) = (.ok ⟨⟩, x', r')) {table : Table}
    (ht : x.working.tables[s.catalog.tables.objects]? = some table) :
    x'.working.tables.map Table.name = x.working.tables.map Table.name := by
  obtain ⟨r₁, n, y, r₂, z, -, hreplay, hstore, hflush⟩ := publish_eq_ok h
  obtain ⟨-, -, hreplaces⟩ := Workspace.replay_eq_ok ht hreplay
  rw [(Recorders.frame_of_flushIndex hflush).names_eq, (Recorders.frame_of_storeRecord hstore).names_eq,
    hreplaces.frame.names_eq]

end Session

end ObjectGraph

import ObjectGraph.Proofs.History.Store
import ObjectGraph.Proofs.Schema.Admission
import ObjectGraph.Proofs.Session.Indexing

namespace ObjectGraph

open Dictionary (Ascending)
open Function (update)
open Stateful (Triple)

def Draft.Reports (before after : Records) (d : Draft) : Prop :=
  ∃ deleted log, d.Logs d.quota.capacity deleted log ∧
    Tracks before after deleted (Event.actAll log before)

theorem Quota.take_error {q : Quota} {n : Nat} {e : Error} (h : q.take n = .error e) :
    e.IsExhaustion := by
  rw [take] at h
  split at h
  · contradiction
  · cases h
    trivial

theorem Draft.start_error {d : Draft} {time : Int64} {actor : Id} {e : Error}
    (h : d.start time actor = .error e) : e.IsExhaustion := by
  rw [start] at h
  cases htake : d.quota.reset.take headLength with
  | error e' =>
    rw [htake] at h
    cases h
    exact Quota.take_error htake
  | ok quota =>
    rw [htake] at h
    contradiction

theorem Draft.reports_of_start {d d' : Draft} {time : Int64} {actor : Id}
    (h : d.start time actor = .ok d') (g : Records) :
    d'.quota.capacity = d.quota.capacity ∧ d'.Reports g g := by
  obtain ⟨quota, htake, h⟩ := Stateful.bind_eq_ok.mp h
  cases h
  rw [Quota.take] at htake
  split at htake
  next hroom =>
    cases htake
    exact ⟨rfl, none, [], ⟨⟨rfl, rfl, rfl, rfl, hroom⟩, rfl, List.forall_mem_nil _⟩, .refl g⟩
  · contradiction

theorem indexForms_ok {raw : Bytes} {x : Option Value} (h : Value.decode raw = .ok x) :
    ∃ forms, indexForms raw = .ok forms := by
  rw [indexForms, h, Stateful.ok_bind]
  split <;> exact ⟨_, rfl⟩

namespace Indexer

theorem observe_exhausts (schema : Schema) {c : Change}
    (hread : ∀ a f, Key.ofBytes? c.key = some (.field a f) → ∀ v, v ∈ c.old ∨ v ∈ c.new →
      ∃ x, Value.decode v = .ok x) :
    Triple (fun _ => True) (observe schema c) (fun _ _ => True) (fun e _ => e.IsExhaustion) := by
  have hkey : ∀ key edit, Triple (fun _ => True) (stageKey key edit) (fun _ _ => True)
      (fun e _ => e.IsExhaustion) := by
    intro key edit
    apply Triple.get_bind
    rintro i -
    exact Triple.ofExcept_bind (fun _ _ => fun _ _ => trivial) fun _ _ _ he => Overlay.put_error he
  have hstage : ∀ a f v edit, (∃ x, Value.decode v = .ok x) →
      Triple (fun _ => True) (stageValue a f v edit) (fun _ _ => True) (fun e _ => e.IsExhaustion) := by
    rintro a f v edit ⟨x, hx⟩
    obtain ⟨forms, hforms⟩ := indexForms_ok hx
    rw [stageValue, hforms]
    exact Triple.forM (I := fun _ _ => True) (fun form _ => hkey _ _) forms
  have hnone : Triple (fun _ => True) (pure () : Indexing Unit) (fun _ _ => True)
      (fun e _ => e.IsExhaustion) := Triple.pure fun _ hi => hi
  rw [observe]
  split
  next a f hfield =>
    split
    · exact hnone
    · have hnew : ∀ v ∈ c.new, Triple (fun _ => True) (stageValue a f v .insert) (fun _ _ => True)
          (fun e _ => e.IsExhaustion) :=
        fun v hv => hstage a f v _ (hread a f hfield v (.inr hv))
      have hold : ∀ v ∈ c.old, Triple (fun _ => True) (stageValue a f v .remove) (fun _ _ => True)
          (fun e _ => e.IsExhaustion) :=
        fun v hv => hstage a f v _ (hread a f hfield v (.inl hv))
      cases hcold : c.old with
      | none =>
        cases hcnew : c.new with
        | none => exact hnone
        | some new => exact hnew new hcnew
      | some old =>
        cases hcnew : c.new with
        | none => exact (hold old hcold).bind fun _ => hnone
        | some new => exact (hold old hcold).bind fun _ => hnew new hcnew
  · exact hnone

theorem writeKey_error {t : TableId} {x : WriteTxn} {table : Table} {e : Entry} {error : Error}
    (ht : x.working.tables[t]? = some table) (h : writeKey t x e = .error error) : error.IsShortage := by
  rw [writeKey] at h
  split at h
  · exact WriteTxn.put_error ht h
  · obtain ⟨found, y, hdelete, -⟩ := WriteTxn.delete_spec (k := e.1.dropLast) ht
    rw [hdelete] at h
    contradiction

theorem flush_error {i : Indexer} {t : TableId} {x : WriteTxn} {e : Error}
    (ht : t < x.working.tables.length) (h : i.flush t x = .error e) : e.IsShortage := by
  rw [flush] at h
  cases hwrites : i.staged.entries.foldlM (writeKey t) x with
  | error e' =>
    rw [hwrites] at h
    cases h
    exact WriteTxn.shortage_of_foldlM ht (fun _ _ _ => frame_of_writeKey)
      (fun _ _ _ _ hy => writeKey_error hy) hwrites
  | ok y =>
    rw [hwrites] at h
    contradiction

end Indexer

namespace Recorders

def room (r : Recorders) : Option Nat := r.draft.map fun d => d.quota.capacity

structure Report (room : Option Nat) (before after : Records) (r : Recorders) : Prop where
  room_eq : r.room = room
  draft : ∀ d ∈ r.draft, d.Reports before after

variable {room : Option Nat} {before after after' : Records} {r r' : Recorders} {k : Key}
  {old new : Option Bytes} {schema : Schema}

theorem report_of_start {c : CommitId} {actor : Id} (hr : r.room = room)
    (h : r.start c actor = .ok r') (g : Records) : r'.Report room g g := by
  obtain ⟨draft, indexer⟩ := r
  cases draft with
  | none =>
    cases h
    exact ⟨hr, nofun⟩
  | some d =>
    obtain ⟨draft', hdraft, h⟩ := Stateful.bind_eq_ok.mp h
    cases h
    obtain ⟨d', hstart, rfl⟩ := Stateful.map_eq_ok.mp hdraft
    obtain ⟨hcapacity, hreports⟩ := Draft.reports_of_start hstart g
    refine ⟨(congrArg some hcapacity).trans hr, ?_⟩
    rintro _ ⟨⟩
    exact hreports

theorem start_error {c : CommitId} {actor : Id} {e : Error} (h : r.start c actor = .error e) :
    e.IsExhaustion := by
  obtain ⟨draft, indexer⟩ := r
  cases draft with
  | none => contradiction
  | some d =>
    change (some <$> d.start (Int64.ofNat c.millis) actor >>= fun draft =>
      .ok (⟨draft, indexer.map Indexer.reset⟩ : Recorders)) = .error e at h
    cases hstart : d.start (Int64.ofNat c.millis) actor with
    | error e' =>
      rw [hstart] at h
      cases h
      exact Draft.start_error hstart
    | ok d' =>
      rw [hstart] at h
      contradiction

theorem observeDraft_report
    (htype : ∀ a, k = .object a → ∀ v, v ∈ old ∨ v ∈ new → ∃ type : Id, v = type.bytes)
    (hstep : ∀ deleted replayed, Tracks before after deleted replayed →
      Tracks before after' (k.deletes deleted old new) (Event.actAll (k.events deleted old new) replayed)) :
    Triple (Report room before after) (observeDraft ⟨k.bytes, old, new⟩)
      (fun _ => Report room before after') (fun e r => e.IsExhaustion ∧ r.room = room) := by
  apply observeDraft_spec
  · exact fun _ h => ⟨h.room_eq, nofun⟩
  · rintro d indexer ⟨hroom, hdraft⟩
    obtain ⟨deleted, log, hlogs, htracks⟩ := hdraft d rfl
    apply (Draft.observe_triple k htype).mono
    · rintro _ rfl
      exact hlogs
    · intro _ d' hobserve
      have hcapacity := hobserve.has.capacity_eq
      refine ⟨(congrArg some hcapacity).trans hroom, ?_⟩
      rintro _ ⟨⟩
      refine ⟨_, _, hcapacity.symm ▸ hobserve, ?_⟩
      rw [Event.actAll_append]
      exact hstep deleted _ htracks
    · exact fun e d' hobserve => ⟨hobserve.1, (congrArg some hobserve.2).trans hroom⟩

theorem observeIndex_report {c : Change}
    (hread : ∀ a f, Key.ofBytes? c.key = some (.field a f) → ∀ v, v ∈ c.old ∨ v ∈ c.new →
      ∃ x, Value.decode v = .ok x) :
    Triple (Report room before after) (observeIndex schema c)
      (fun _ => Report room before after) (fun e r => e.IsExhaustion ∧ r.room = room) := by
  apply observeIndex_spec
  · exact fun _ h => h
  · intro draft i hr
    apply (Indexer.observe_exhausts schema hread).mono
    · exact fun _ _ => trivial
    · exact fun _ _ _ => ⟨hr.room_eq, hr.draft⟩
    · exact fun _ _ hobserve => ⟨hobserve, hr.room_eq⟩

end Recorders

namespace Replay

open Recorders (Report observeDraft observeIndex)

structure Reached (t : TableId) (x : WriteTxn) (room : Option Nat) (before : Records)
    (entries : List Entry) (xs : WriteTxn × Recorders) : Prop where
  replaces : x.Replaces t entries xs.1
  report : xs.2.Report room before (recorded entries)

def Stuck (room : Option Nat) (e : Error) (xs : WriteTxn × Recorders) : Prop :=
  e.IsShortage ∧ xs.2.room = room

variable {schema : Schema} {t : TableId} {x : WriteTxn} {table : Table} {room : Option Nat}
  {before after after' : Records} {entries es : List Entry} {e : Entry} {k : Key}
  {old new : Option Bytes}

theorem observers_report (hadmits : ∀ v, v ∈ old ∨ v ∈ new → schema.Admits k v)
    (hstep : ∀ deleted replayed, Tracks before after deleted replayed →
      Tracks before after' (k.deletes deleted old new) (Event.actAll (k.events deleted old new) replayed)) :
    Triple (fun xs => xs.1 = x ∧ xs.2.Report room before after)
      ([observeDraft, observeIndex schema].forM (announce · ⟨k.bytes, old, new⟩))
      (fun _ xs => xs.1 = x ∧ xs.2.Report room before after') (Stuck room) := by
  have hfail : ∀ (e : Error) (xs : WriteTxn × Recorders), e.IsExhaustion ∧ xs.2.room = room →
      Stuck room e xs := fun e xs h => ⟨h.1.isShortage, h.2⟩
  have hdraft : Triple (Report room before after) (observeDraft ⟨k.bytes, old, new⟩)
      (fun _ => Report room before after') (fun e r => e.IsExhaustion ∧ r.room = room) := by
    apply Recorders.observeDraft_report _ hstep
    rintro a rfl v hv
    obtain ⟨type, htype, -⟩ := hadmits v hv
    exact ⟨type, htype⟩
  have hindex : Triple (Report room before after') (observeIndex schema ⟨k.bytes, old, new⟩)
      (fun _ => Report room before after') (fun e r => e.IsExhaustion ∧ r.room = room) := by
    apply Recorders.observeIndex_report
    intro a f hfield v hv
    rw [Key.ofBytes?_bytes] at hfield
    cases hfield
    obtain ⟨d, value, -, -, hvalue, -⟩ := hadmits v hv
    exact ⟨_, hvalue⟩
  apply Triple.bind
  · exact (announce_triple (A := (· = x)) hdraft).mono (fun _ h => h) (fun _ _ h => h) hfail
  · intro _
    exact ((announce_triple (A := (· = x)) hindex).mono (fun _ h => h) (fun _ _ h => h) hfail).bind_pure

theorem changeOf_withEntries (horder : table.order = KeyOrder.lexicographic) (hk : e.1 = k.bytes) :
    changeOf (table.withEntries entries) e = ⟨k.bytes, recorded entries k, Staged.payload? e.2⟩ := by
  rw [changeOf, Table.get?, hk]
  change (⟨_, Dictionary.get? table.order _ _, _⟩ : Change) = _
  rw [horder]
  rfl

theorem entry_reaches (hx : x.working.tables[t]? = some table)
    (horder : table.order = KeyOrder.lexicographic) (hd : Ascending KeyOrder.lexicographic entries)
    (hadmitted : Admitted schema entries)
    (he : ∃ k : Key, e.1 = k.bytes ∧ ∀ v, Staged.payload? e.2 = some v → schema.Admits k v)
    (hfresh : ∀ j : Key, (compare e.1 j.bytes).isLE → recorded entries j = before j) :
    Triple (Reached t x room before entries) (entry t [observeDraft, observeIndex schema] e)
      (fun _ => Reached t x room before (Staged.apply KeyOrder.lexicographic entries e))
      (Stuck room) := by
  rintro ⟨y, r⟩ ⟨hreplaces, hreport⟩
  obtain ⟨k, hk, hnew⟩ := he
  have hy : y.working.tables[t]? = some (table.withEntries entries) := hreplaces.getElem?_self hx
  have hadmits : ∀ v, v ∈ recorded entries k ∨ v ∈ Staged.payload? e.2 → schema.Admits k v := by
    rintro v (hv | hv)
    · exact hadmitted.of_mem ((recorded_eq_some_iff hd).mp hv)
    · exact hnew v hv
  have hobserve : Triple (fun xs => xs.1 = y ∧ xs.2.Report room before (recorded entries))
      ([observeDraft, observeIndex schema].forM (announce · (changeOf (table.withEntries entries) e)))
      (fun _ xs => xs.1 = y ∧ xs.2.Report room before
        (recorded (Staged.apply KeyOrder.lexicographic entries e))) (Stuck room) := by
    rw [changeOf_withEntries horder hk, recorded_apply hd hk]
    apply observers_report hadmits
    intro deleted replayed htracks
    apply htracks.step schema
    · exact hfresh k (by rw [hk, Std.ReflOrd.compare_self]; rfl)
    · rintro a j rfl howner
      apply hfresh j
      rw [hk]
      exact KeyOrder.isLE_of_prefix (List.isPrefixOf_iff_prefix.mp (Key.isPrefixOf_owner.mpr howner))
    · exact fun v hv => hadmits v (.inl hv)
    · exact fun v hv => hadmits v (.inr hv)
  rw [entry_run hy]
  refine hobserve.bind (fun _ => Triple.intro ?_ ?_) (y, r) ⟨rfl, hreport⟩
  · rintro ⟨_, r⟩ ⟨⟩ ⟨y', r'⟩ ⟨rfl, hr⟩ hrun
    obtain ⟨rfl, hwritten⟩ := write_eq_ok hy hrun
    have happlied : WriteTxn.Replaces t (Staged.apply table.order entries e) _ y' := hwritten
    rw [horder] at happlied
    exact ⟨hreplaces.trans happlied, hr⟩
  · rintro ⟨_, r⟩ error ⟨y', r'⟩ ⟨rfl, hr⟩ hrun
    obtain ⟨-, rfl, v, -, hput⟩ := write_error hy hrun
    exact ⟨WriteTxn.put_error hy hput, hr.room_eq⟩

theorem entries_reach (hx : x.working.tables[t]? = some table)
    (horder : table.order = KeyOrder.lexicographic) (hd : Ascending KeyOrder.lexicographic entries)
    (hadmitted : Admitted schema entries) (hes : Ascending KeyOrder.lexicographic es)
    (hstaged : Staged.Admitted schema es)
    (hfresh : ∀ e ∈ es, ∀ j : Key, (compare e.1 j.bytes).isLE → recorded entries j = before j) :
    Triple (Reached t x room before entries)
      (es.forM (entry t [observeDraft, observeIndex schema]))
      (fun _ => Reached t x room before (Staged.override KeyOrder.lexicographic entries es))
      (Stuck room) := by
  induction es generalizing entries with
  | nil => exact Triple.pure fun _ h => h
  | cons e es ih =>
    have he := hstaged e List.mem_cons_self
    have hfresh' := hfresh e List.mem_cons_self
    apply Triple.bind (entry_reaches hx horder hd hadmitted he hfresh')
    intro _
    refine ih (Staged.ascending_apply hd) (hadmitted.apply hd he) hes.tail
      (fun a ha => hstaged a (List.mem_cons_of_mem e ha)) ?_
    -- the keys to come are above this one, so they are as they were
    intro a ha j haj
    have hej : compare e.1 j.bytes = .lt := Std.TransCmp.lt_of_lt_of_isLE (hes.head_lt ha) haj
    obtain ⟨k, hk, -⟩ := he
    rw [recorded_apply hd hk, Function.update_of_ne, hfresh' j (Ordering.isLE_of_eq_lt hej)]
    rintro rfl
    rw [hk, Std.ReflOrd.compare_self] at hej
    contradiction

end Replay

structure Tables.Within (t : Tables) (count : Nat) : Prop where
  objects_lt : t.objects < count
  history_lt : t.history < count
  historyByObject_lt : t.historyByObject < count
  search_lt : t.search < count

structure Recorders.Told (t : Tables) (c : CommitId) (x : WriteTxn) (room : Option Nat)
    (before after : Records) (xs : WriteTxn × Recorders) : Prop where
  length_eq : xs.1.working.tables.length = x.working.tables.length
  room_eq : xs.2.room = room
  history : room.isSome → ∀ history, x.working.tables[t.history]? = some history →
    history.order = KeyOrder.lexicographic → ∃ deleted log history',
      Tracks before after deleted (Event.actAll log before) ∧
      xs.1.working.tables[t.history]? = some history' ∧
      history'.order = KeyOrder.lexicographic ∧ Commit.Tells c log history.entries history'.entries

namespace Recorders

variable {t : Tables} {c : CommitId} {x : WriteTxn} {room : Option Nat} {before : Records}
  {entries : List Entry}

theorem storeRecord_tells (hdistinct : t.Distinct) (hwithin : t.Within x.working.tables.length)
    (hroom : ∀ capacity ∈ room, capacity ≤ Quota.maxCapacity) :
    Triple (Replay.Reached t.objects x room before entries) (storeRecord t c)
      (fun _ => Told t c x room before (recorded entries)) (Replay.Stuck room) := by
  rintro ⟨y, draft, indexer⟩ ⟨hreplaces, hreport⟩
  have hlength := hreplaces.frame.length_eq
  cases draft with
  | none =>
    refine ⟨hlength, hreport.room_eq, ?_⟩
    rw [← hreport.room_eq]
    nofun
  | some d =>
    have hrun : (storeRecord t c).run (y, ⟨some d, indexer⟩) =
        ((d.store t c y).map fun _ => ⟨⟩,
          match d.store t c y with
          | .ok y' => (y', ⟨some d, indexer⟩)
          | .error _ => (y, ⟨some d, indexer⟩)) := by
      simp only [storeRecord, Stateful.run_bind, Stateful.run_get, Stateful.run_ofExcept]
      cases d.store t c y <;> rfl
    rw [hrun]
    cases hstore : d.store t c y with
    | error e =>
      refine ⟨Draft.store_error ?_ ?_ ?_ hstore, hreport.room_eq⟩
      · exact hlength ▸ hwithin.objects_lt
      · exact hlength ▸ hwithin.history_lt
      · exact hlength ▸ hwithin.historyByObject_lt
    | ok y' =>
      obtain ⟨deleted, log, hlogs, htracks⟩ := hreport.draft d rfl
      have hcapacity : d.quota.capacity ≤ Quota.maxCapacity := hroom _ hreport.room_eq.symm
      have hlength' := (Draft.frame_of_store hstore).length_eq
      refine ⟨hlength'.trans hlength, hreport.room_eq, ?_⟩
      rintro - history hhistory horder
      rw [← hreplaces.getElem?_ne hdistinct.objects_ne_history.symm] at hhistory
      obtain ⟨history', hhistory', horder', htells⟩ :=
        hlogs.tells hcapacity hdistinct hhistory horder hstore
      exact ⟨deleted, log, history', htracks, hhistory', horder', htells⟩

theorem flushIndex_tells {after : Records} (hdistinct : t.Distinct)
    (hwithin : t.Within x.working.tables.length) :
    Triple (Told t c x room before after) (flushIndex t) (fun _ => Told t c x room before after)
      (Replay.Stuck room) := by
  apply Triple.intro
  · rintro ⟨y, r⟩ ⟨⟩ ⟨y', r'⟩ h hrun
    have hroom : r'.room = r.room := by
      obtain ⟨draft, indexer⟩ := r
      cases indexer with
      | none =>
        cases hrun
        rfl
      | some i =>
        simp only [flushIndex, Stateful.run_bind, Stateful.run_get, Stateful.run_ofExcept] at hrun
        cases hflush : i.flush t.search y with
        | error e =>
          rw [hflush] at hrun
          cases hrun
        | ok flushed =>
          rw [hflush] at hrun
          cases hrun
          rfl
    have hframe := frame_of_flushIndex hrun
    refine ⟨hframe.length_eq.trans h.length_eq, hroom.trans h.room_eq, ?_⟩
    intro hsome history hhistory horder
    obtain ⟨deleted, log, history', htracks, hhistory', htells⟩ := h.history hsome history hhistory horder
    refine ⟨deleted, log, history', htracks, ?_, htells⟩
    rw [hframe.getElem?_eq _ hdistinct.search_ne_history.symm]
    exact hhistory'
  · rintro ⟨y, draft, indexer⟩ e ⟨y', r'⟩ h hrun
    cases indexer with
    | none => cases hrun
    | some i =>
      simp only [flushIndex, Stateful.run_bind, Stateful.run_get, Stateful.run_ofExcept] at hrun
      cases hflush : i.flush t.search y with
      | error e =>
        rw [hflush] at hrun
        cases hrun
        exact ⟨Indexer.flush_error (h.length_eq ▸ hwithin.search_lt) hflush, h.room_eq⟩
      | ok flushed =>
        rw [hflush] at hrun
        cases hrun

end Recorders

theorem Session.publish_tells {s : Session} {c : CommitId} {x : WriteTxn} {table : Table}
    {room : Option Nat} (hdistinct : s.catalog.tables.Distinct)
    (hwithin : s.catalog.tables.Within x.working.tables.length)
    (hx : x.working.tables[s.catalog.tables.objects]? = some table)
    (hvalid : table.Valid KeyOrder.lexicographic) (hadmitted : Admitted s.catalog.schema table.entries)
    (hes : Ascending KeyOrder.lexicographic s.workspace.overlay.entries)
    (hstaged : Staged.Admitted s.catalog.schema s.workspace.overlay.entries)
    (hroom : ∀ capacity ∈ room, capacity ≤ Quota.maxCapacity) :
    Triple (fun xs => xs.1 = x ∧ xs.2.room = room) (s.publish c)
      (fun _ => Recorders.Told s.catalog.tables c x room (recorded table.entries) (recorded
        (Staged.override KeyOrder.lexicographic table.entries s.workspace.overlay.entries)))
      (Replay.Stuck room) := by
  apply Triple.get_bind
  rintro ⟨x, r⟩ ⟨rfl, hr⟩
  apply Triple.ofExcept_bind
  · intro r' hstart
    apply Triple.bind (Q := fun _ => Replay.Reached s.catalog.tables.objects x room
      (recorded table.entries) table.entries)
    · rintro _ rfl
      exact ⟨.refl hx, Recorders.report_of_start hr hstart _⟩
    intro _
    apply Triple.bind (Triple.discard (Triple.bind_pure (Replay.entries_reach hx hvalid.order_eq
      hvalid.ascending hadmitted hes hstaged fun _ _ _ _ => rfl)))
    intro _
    apply Triple.bind ((Recorders.storeRecord_tells hdistinct hwithin hroom).mono _ (fun _ _ h => h)
      fun _ _ h => h)
    · exact fun _ => Recorders.flushIndex_tells hdistinct hwithin
    · exact fun xs ⟨_, hxs⟩ => hxs
  · rintro _ e rfl he
    exact ⟨(Recorders.start_error he).isShortage, hr⟩

end ObjectGraph

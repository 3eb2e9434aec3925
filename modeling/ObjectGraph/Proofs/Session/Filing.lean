import ObjectGraph.Proofs.History.Archive
import ObjectGraph.Proofs.History.Blocks
import ObjectGraph.Proofs.Session.Mirroring
import ObjectGraph.Proofs.Session.Recording

namespace ObjectGraph

open Dictionary (Ascending)
open Stateful

def Carried (σ : Bytes → Option Bytes) : Prop := ∀ (k : Key) (v : Bytes), σ k.bytes = some v → k.Carries v

def Staged.Carried (σ : Bytes → Option Bytes) : Prop :=
  ∀ (k : Key) (v : Bytes), σ k.bytes = some (upsert v) → k.Carries v

theorem Schema.Admits.carries {schema : Schema} {k : Key} {v : Bytes} (h : schema.Admits k v) :
    k.Carries v := by
  cases k with
  | object a =>
    obtain ⟨type, hv, -⟩ := h
    exact ⟨type, hv⟩
  | field a f => trivial
  | association half => exact h

theorem Carried.override {base : Table} {overlay : Overlay} (hbase : base.Valid KeyOrder.lexicographic)
    (hoverlay : overlay.Valid KeyOrder.lexicographic) (h : Carried base.get?)
    (hstaged : Staged.Carried overlay.get?) :
    Carried (base.withEntries
      (Staged.override KeyOrder.lexicographic base.entries overlay.entries)).get? := by
  intro k v hv
  rw [hbase.get?_override hoverlay] at hv
  cases hk : overlay.get? k.bytes with
  | none =>
    rw [hk] at hv
    exact h k v hv
  | some bs =>
    rw [hk] at hv
    exact hstaged k v (hk.trans (congrArg some (Staged.payload?_eq_some_iff.mp hv)))

namespace Replay

variable {t : TableId} {x y : WriteTxn} {r r' : Recorders} {table : Table} {overlay : Overlay} {c : Change}
  {schema : Schema} {es : List Entry} {d : Draft}

theorem override_eq_iff (htable : table.Valid KeyOrder.lexicographic)
    (hoverlay : overlay.Valid KeyOrder.lexicographic) :
    Staged.override KeyOrder.lexicographic table.entries overlay.entries = table.entries ↔
      ∀ c ∈ overlay.entries.map (changeOf table), c.IsNoop := by
  have hread := htable.get?_override hoverlay
  have hstaged : ∀ k bs, overlay.get? k = some bs ↔ (k, bs) ∈ overlay.entries := by
    intro k bs
    rw [hoverlay.get?_eq, Dictionary.get?_eq_some_iff hoverlay.ascending]
  constructor
  · intro hsame c hc
    obtain ⟨e, he, rfl⟩ := List.mem_map.mp hc
    have heq := hread e.1
    rw [hsame, (hstaged e.1 e.2).mpr he] at heq
    exact heq
  · intro hnoop
    apply (Staged.ascending_override htable.ascending).ext_get? htable.ascending
    intro k
    have heq := hread k
    rw [Table.get?] at heq
    change Dictionary.get? table.order k (Staged.override _ _ _) = _ at heq
    rw [htable.order_eq] at heq
    rw [heq, ← htable.get?_eq]
    cases hk : overlay.get? k with
    | none => rfl
    | some bs => exact (hnoop _ (List.mem_map_of_mem ((hstaged k bs).mp hk))).symm

theorem proper_changeOf {e : Entry} (hoverlay : overlay.Valid KeyOrder.lexicographic)
    (hcarried : Carried table.get?) (hstaged : Staged.Carried overlay.get?)
    (he : e ∈ overlay.entries) {k : Key} (hk : e.1 = k.bytes) : (changeOf table e).Proper := by
  refine ⟨k, hk, fun v hv => ?_⟩
  rcases hv with hv | hv
  · exact hcarried k v (hk ▸ hv)
  · have hread : overlay.get? e.1 = some e.2 := by
      rw [hoverlay.get?_eq, Dictionary.get?_eq_some_iff hoverlay.ascending]
      exact he
    rw [hk] at hread
    exact hstaged k v (hread.trans (congrArg some (Staged.payload?_eq_some_iff.mp hv)))

theorem observers_eq_ok (hd : r.draft = some d)
    (h : ([Recorders.observeDraft, Recorders.observeIndex schema].forM (announce · c)).run (x, r) =
      (.ok ⟨⟩, y, r')) :
    ∃ d', r'.draft = some d' ∧ (Draft.observe c).run d = (.ok ⟨⟩, d') := by
  let Observed (r : Recorders) : Prop := ∃ d', r.draft = some d' ∧ (Draft.observe c).run d = (.ok ⟨⟩, d')
  have hdraft : Triple (fun r => r.draft = some d) (Recorders.observeDraft c) (fun _ => Observed)
      (fun _ _ => True) := by
    apply Recorders.observeDraft_spec
    · nofun
    · rintro _ indexer ⟨⟩
      apply Triple.intro
      · rintro _ ⟨⟩ d' rfl hrun
        exact ⟨d', rfl, hrun⟩
      · exact fun _ _ _ _ _ => trivial
  have hindex : Triple Observed (Recorders.observeIndex schema c) (fun _ => Observed) (fun _ _ => True) := by
    apply Recorders.observeIndex_spec
    · exact fun _ hr => hr
    · intro draft i hr
      exact Triple.intro (fun _ _ _ _ _ => hr) fun _ _ _ _ _ => trivial
  have hboth : Triple (fun xs => True ∧ xs.2.draft = some d)
      ([Recorders.observeDraft, Recorders.observeIndex schema].forM (announce · c))
      (fun _ xs => True ∧ Observed xs.2) (fun _ _ => True) :=
    (announce_triple (A := fun _ => True) hdraft).bind fun _ =>
      (announce_triple (A := fun _ => True) hindex).bind_pure
  exact (hboth.ok ⟨trivial, hd⟩ h).2

theorem observed_of_entries (ht : x.working.tables[t]? = some table)
    (hvalid : table.Valid KeyOrder.lexicographic) (hes : Ascending KeyOrder.lexicographic es)
    (hd : r.draft = some d)
    (h : (es.forM (entry t [Recorders.observeDraft, Recorders.observeIndex schema])).run (x, r) =
      (.ok ⟨⟩, y, r')) :
    ∃ d', r'.draft = some d' ∧ ((es.map (changeOf table)).forM Draft.observe).run d = (.ok ⟨⟩, d') := by
  induction es generalizing x r d table with
  | nil =>
    cases h
    exact ⟨d, hd, rfl⟩
  | cons e es ih =>
    obtain ⟨_, ⟨z, r₁⟩, hentry, hrest⟩ := run_bind_eq_ok.mp h
    obtain ⟨hseen, hreplaces⟩ := entry_eq_ok ht hentry
    obtain ⟨d₁, hd₁, hobserve⟩ := observers_eq_ok hd hseen
    obtain ⟨d', hd', hobserved⟩ := ih (hreplaces.getElem?_self ht) (hvalid.apply e) hes.tail hd₁ hrest
    -- the keys yet to come are above the one just written, so they are as they were
    have hchanges : es.map (changeOf (table.withEntries (Staged.apply table.order table.entries e))) =
        es.map (changeOf table) :=
      List.map_congr_left fun a ha => changeOf_apply hvalid (hes.head_lt ha)
    rw [hchanges] at hobserved
    exact ⟨d', hd', run_bind_eq_ok.mpr ⟨⟨⟩, d₁, hobserve, hobserved⟩⟩

end Replay

namespace Draft

variable {capacity : Nat} {deleted : Option Id} {blocks blocks' : List Block} {d : Draft} {t : Tables}
  {c : CommitId} {x x' : WriteTxn} {history index : Table}

theorem objects_congr (h : blocks.map Block.contents = blocks'.map Block.contents) :
    blocks.map Block.object = blocks'.map Block.object := by
  have hobjects := congrArg (List.map Prod.fst) h
  rwa [List.map_map, List.map_map] at hobjects

theorem files_of_store (hd : Holds capacity deleted blocks d) (hcapacity : capacity ≤ Quota.maxCapacity)
    (htidy : ∀ b ∈ blocks, b.Tidy) (hnodup : (blocks.map Block.object).Nodup) (hdistinct : t.Distinct)
    (hhistory : x.working.tables[t.history]? = some history)
    (hindex : x.working.tables[t.historyByObject]? = some index) (h : d.store t c x = .ok x') :
    ∃ added history' index', x'.working.tables[t.history]? = some history' ∧
      x'.working.tables[t.historyByObject]? = some index' ∧
      Commit.Files c history index added history' index' ∧
      added.length = if blocks = [] then 0 else 1 := by
  obtain rfl := hd.blocks_eq
  rcases store_eq_ok hdistinct hhistory h with ⟨hempty, rfl⟩ | ⟨hne, d', hcontents, hrecord, hentries⟩
  · exact ⟨[], history, index, hhistory, hindex, .nothing, by rw [if_pos hempty]; rfl⟩
  · have hlength : lengthOf d'.blocks < 1 <<< 32 := by
      rw [lengthOf_congr hcontents]
      have hused := hd.used_le
      have hmax : Quota.maxCapacity < 1 <<< 32 := by decide
      omega
    have hdecode := decode_bytes c (tidy_congr hcontents htidy) hlength
    have hobjects : (d'.blocks.reverse.map Block.changes).map ObjectChanges.object = d'.touched := by
      rw [touched, List.map_map, ← List.map_reverse]
      rfl
    have hkeys : (d'.blocks.reverse.map Block.changes).map (fun o => objectCommitKey o.object c) =
        d'.touched.map (objectCommitKey · c) := by
      simp only [← hobjects, List.map_map]
      rfl
    have hdistinct' : ((d'.blocks.reverse.map Block.changes).map ObjectChanges.object).Nodup := by
      rw [hobjects, touched, (List.reverse_perm _).nodup_iff, objects_congr hcontents]
      exact hnodup
    have hfiles : Commit.Files c history index
        [(⟨c, d'.time, d'.actor, d'.blocks.reverse.map Block.changes⟩, d'.bytes)]
        (history.insert c.bytes d'.bytes) _ := .record rfl hdecode hdistinct'
    refine ⟨_, _, _, hrecord, ?_, hfiles, by rw [if_neg hne]; rfl⟩
    rw [hentries index hindex, hkeys, List.foldl_map]

end Draft

theorem Recorders.begun_of_start {r r' : Recorders} {c : CommitId} {actor : Id} {capacity : Nat}
    (hroom : r.room = some capacity) (h : r.start c actor = .ok r') :
    Draft.headLength ≤ capacity ∧
      r'.draft = some (Draft.begun capacity (Int64.ofNat c.millis) actor) := by
  obtain ⟨draft, indexer⟩ := r
  obtain ⟨d, rfl, rfl⟩ := Option.map_eq_some_iff.mp hroom
  obtain ⟨draft', hdraft, h⟩ := bind_eq_ok.mp h
  cases h
  obtain ⟨d', hstart, rfl⟩ := map_eq_ok.mp hdraft
  obtain ⟨hle, rfl⟩ := Draft.start_eq_ok.mp hstart
  exact ⟨hle, rfl⟩

theorem Draft.keys_of_observe_all {changes : List Change} {d d' : Draft}
    (h : (changes.forM observe).run d = (.ok ⟨⟩, d')) : ∀ c ∈ changes, ∃ k : Key, c.key = k.bytes := by
  induction changes generalizing d with
  | nil => nofun
  | cons c changes ih =>
    obtain ⟨_, d₁, hobserve, hrest⟩ := run_bind_eq_ok.mp h
    obtain ⟨k, hk, -⟩ := shape_of_observe hobserve
    exact List.forall_mem_cons.mpr ⟨⟨k, hk⟩, ih hrest⟩

theorem Draft.blocks_of_observe_all {changes : List Change} {capacity : Nat} {d d' : Draft}
    (hbegun : Holds capacity none [] d)
    (hascending : changes.Pairwise fun c c' => compare c.key c'.key = .lt)
    (h : (changes.forM observe).run d = (.ok ⟨⟩, d')) :
    ∃ deleted blocks, Holds capacity deleted blocks d' ∧ (∀ b ∈ blocks, b.Tidy) ∧
      (blocks.map Block.object).Nodup ∧ (blocks = [] ↔ Change.log none changes = []) := by
  have hgrouped := Grouped.foldl_recording ⟨.nil, nofun, nofun⟩ (Change.log none changes)
  have hlog : logOf ((Change.log none changes).foldl recording []) = Change.log none changes :=
    logOf_foldl_recording _
  refine ⟨_, _, holds_of_observe_all hbegun h, tidy_foldl_recording _ nofun, hgrouped.nodup ?_, ?_⟩
  · rw [hlog]
    exact Change.log_ascending hascending none
  · constructor
    · intro hnil
      rw [hnil] at hlog
      exact hlog.symm
    · intro hnil
      rw [hnil]
      rfl

theorem Session.publish_files {s : Session} {c : CommitId} {x x' : WriteTxn} {r r' : Recorders}
    {table history index : Table} {capacity : Nat}
    (hrun : (s.publish c).run (x, r) = (.ok ⟨⟩, x', r')) (hdistinct : s.catalog.tables.Distinct)
    (hroom : r.room = some capacity) (hcapacity : capacity ≤ Quota.maxCapacity)
    (htable : x.working.tables[s.catalog.tables.objects]? = some table)
    (hvalid : table.Valid KeyOrder.lexicographic)
    (hoverlay : s.workspace.overlay.Valid KeyOrder.lexicographic) (hcarried : Carried table.get?)
    (hstaged : Staged.Carried s.workspace.overlay.get?)
    (hhistory : x.working.tables[s.catalog.tables.history]? = some history)
    (hindex : x.working.tables[s.catalog.tables.historyByObject]? = some index) :
    ∃ added history' index', x'.working.tables[s.catalog.tables.history]? = some history' ∧
      x'.working.tables[s.catalog.tables.historyByObject]? = some index' ∧
      Commit.Files c history index added history' index' ∧ added.length =
        if Staged.override KeyOrder.lexicographic table.entries s.workspace.overlay.entries = table.entries
        then 0 else 1 := by
  obtain ⟨r₁, n, y, r₂, z, hstart, hreplay, hstore, hflush⟩ := publish_eq_ok hrun
  obtain ⟨hroom, hdraft⟩ := Recorders.begun_of_start hroom hstart
  obtain ⟨-, hentries, hreplaces⟩ := Workspace.replay_eq_ok htable hreplay
  obtain ⟨d, hd, hobserved⟩ :=
    Replay.observed_of_entries htable hvalid hoverlay.ascending hdraft hentries
  -- the blocks are those of the events, in the order of the keys
  have hproper : ∀ change ∈ s.workspace.overlay.entries.map (Replay.changeOf table), change.Proper := by
    intro change hchange
    obtain ⟨k, hk⟩ := Draft.keys_of_observe_all hobserved change hchange
    obtain ⟨e, he, rfl⟩ := List.mem_map.mp hchange
    exact Replay.proper_changeOf hoverlay hcarried hstaged he hk
  have hbegun : Draft.Holds capacity none [] (Draft.begun capacity (Int64.ofNat c.millis) s.actor) :=
    ⟨rfl, rfl, rfl, rfl, hroom⟩
  have hascending : (s.workspace.overlay.entries.map (Replay.changeOf table)).Pairwise
      fun change change' => compare change.key change'.key = .lt :=
    List.pairwise_map.mpr hoverlay.ascending
  obtain ⟨deleted, blocks, hholds, htidy, hnodup, hempty⟩ :=
    Draft.blocks_of_observe_all hbegun hascending hobserved
  rw [Change.log_eq_nil_iff hproper, ← Replay.override_eq_iff hvalid hoverlay] at hempty
  -- and they are stored beside the objects
  obtain ⟨-, hstored⟩ := Recorders.storeRecord_eq_ok hstore
  rw [hd] at hstored
  have hhistory' := (hreplaces.getElem?_ne hdistinct.objects_ne_history.symm).trans hhistory
  have hindex' := (hreplaces.getElem?_ne hdistinct.objects_ne_historyByObject.symm).trans hindex
  obtain ⟨added, history', index', hrecord, hentry, hfiles, hlength⟩ :=
    Draft.files_of_store hholds hcapacity htidy hnodup hdistinct hhistory' hindex' hstored
  have hframe := Recorders.frame_of_flushIndex hflush
  refine ⟨added, history', index', ?_, ?_, hfiles, ?_⟩
  · rw [hframe.getElem?_eq _ hdistinct.search_ne_history.symm]
    exact hrecord
  · rw [hframe.getElem?_eq _ hdistinct.search_ne_historyByObject.symm]
    exact hentry
  · simp only [hlength, hempty]

end ObjectGraph

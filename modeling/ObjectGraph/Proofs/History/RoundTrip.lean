import Mathlib.Data.List.Forall2
import Mathlib.Data.List.SplitBy
import ObjectGraph.Proofs.History.Confinement
import ObjectGraph.Proofs.History.Record
import ObjectGraph.Proofs.History.Store
import ObjectGraph.Proofs.History.Walks

namespace ObjectGraph

open Stateful (Triple run_bind_eq_ok run_ofExcept_bind_eq_ok)

namespace Change

def events (deleted : Option Id) (c : Change) : List (Id × Event) :=
  match Key.ofBytes? c.key with
  | some k => k.events deleted c.old c.new
  | none => []

def deletes (deleted : Option Id) (c : Change) : Option Id :=
  match Key.ofBytes? c.key with
  | some k => k.deletes deleted c.old c.new
  | none => deleted

def log (deleted : Option Id) : List Change → List (Id × Event)
  | [] => []
  | c :: changes => c.events deleted ++ log (c.deletes deleted) changes

end Change

namespace ObjectChanges

def ofRun {σ : Type} (lookup : TypeLookup σ) (run : List (Id × Event)) :
    ExceptT Error (StateM σ) ObjectChanges := do
  let object := (run.head?.map Prod.fst).getD Id.nil
  let type := (run.reverse.findSome? fun entry => entry.2.type?).getD Id.nil
  let type ← if type = Id.nil then (·.getD Id.nil) <$> lookup object else pure type
  return ⟨object, type, run.map Prod.snd⟩

def ofLog {σ : Type} (lookup : TypeLookup σ) (log : List (Id × Event)) :
    ExceptT Error (StateM σ) (List ObjectChanges) :=
  (log.splitBy fun a b => a.1 = b.1).mapM (ofRun lookup)

def log (o : ObjectChanges) : List (Id × Event) := o.events.map (o.object, ·)

end ObjectChanges

namespace Draft

def begun (capacity : Nat) (time : Int64) (actor : Id) : Draft :=
  ⟨⟨capacity, headLength⟩, time, actor, [], none⟩

theorem start_eq (d : Draft) (time : Int64) (actor : Id) : d.start time actor =
    if headLength ≤ d.quota.capacity then .ok (begun d.quota.capacity time actor)
    else .error (.arenaExhausted headLength 0 d.quota.capacity) := by
  have hused : d.quota.reset.used + headLength = headLength := Nat.zero_add _
  have hcapacity : d.quota.reset.capacity = d.quota.capacity := rfl
  rw [start, Quota.take, hused, hcapacity]
  by_cases hroom : headLength ≤ d.quota.capacity
  · rw [if_pos hroom, if_pos hroom]
    rfl
  · rw [if_neg hroom, if_neg hroom]
    rfl

theorem start_eq_ok {d d' : Draft} {time : Int64} {actor : Id} : d.start time actor = .ok d' ↔
    headLength ≤ d.quota.capacity ∧ d' = begun d.quota.capacity time actor := by
  rw [start_eq]
  split
  next hroom => simp [hroom, eq_comm]
  next hfull => simp [hfull]

structure ReadsAs (bs : Bytes) (time : Int64) (actor : Id) (objects : List ObjectChanges) : Prop where
  decodes : ∀ c, Reader.Comes (Reader.decode c bs) (.ok ⟨c, time, actor, objects⟩)
  view : ∃ v, Reader.Comes (Reader.view bs) (.ok v) ∧ Reader.ReadsOut bs v ∧ v.time = time ∧ v.actor = actor ∧
    v.objectCount = .ok objects.length ∧
    v.objects.map (·.map fun b => (b.object, b.type, b.events)) =
      objects.map fun o => .ok (o.object, o.type, o.events.map .ok)

section Blocks

variable {a : Id} {e : Event} {blocks : List Block}

structure Grouped (blocks : List Block) : Prop where
  apart : blocks.IsChain fun b b' => b.object ≠ b'.object
  inhabited : ∀ b ∈ blocks, b.items ≠ []
  typed : ∀ b ∈ blocks, b.type = (b.items.findSome? fun i => i.event.type?).getD Id.nil

theorem Grouped.opened (h : Grouped blocks) (a : Id) :
    (opened a blocks).IsChain (fun b b' => b.object ≠ b'.object) ∧
      (∀ b ∈ (Draft.opened a blocks).tail, b.items ≠ []) ∧
      ∀ b ∈ Draft.opened a blocks, b.type = (b.items.findSome? fun i => i.event.type?).getD Id.nil := by
  rw [Draft.opened]
  split
  next hhead => exact ⟨h.apart, fun b hb => h.inhabited b (List.mem_of_mem_tail hb), h.typed⟩
  next hhead =>
    refine ⟨List.isChain_cons.mpr ⟨fun b hb hab => hhead ?_, h.apart⟩, h.inhabited, ?_⟩
    · rw [Option.mem_def.mp hb]
      exact congrArg some hab.symm
    · exact List.forall_mem_cons.mpr ⟨rfl, h.typed⟩

theorem Grouped.recording (h : Grouped blocks) (a : Id) (e : Event) :
    Grouped (recording blocks (a, e)) := by
  obtain ⟨type, items, rest, hopened, hrecording, -⟩ := recording_eq_cons blocks a e
  obtain ⟨hapart, hinhabited, htyped⟩ := h.opened a
  rw [hopened] at hapart hinhabited htyped
  obtain ⟨htype, hrest⟩ := List.forall_mem_cons.mp htyped
  rw [hrecording]
  refine ⟨List.isChain_cons.mpr (List.isChain_cons.mp hapart), ?_, ?_⟩
  · exact List.forall_mem_cons.mpr ⟨List.cons_ne_nil _ _, hinhabited⟩
  · refine List.forall_mem_cons.mpr ⟨?_, hrest⟩
    change e.type?.getD type = _
    rw [show type = _ from htype, List.findSome?_cons]
    cases e.type? <;> rfl

theorem Grouped.foldl_recording (h : Grouped blocks) (events : List (Id × Event)) :
    Grouped (events.foldl Draft.recording blocks) := by
  induction events generalizing blocks with
  | nil => exact h
  | cons entry events ih => exact ih (h.recording entry.1 entry.2)

theorem fst_of_mem_log {b : Block} {entry : Id × Event} (h : entry ∈ b.log) : entry.1 = b.object := by
  obtain ⟨i, -, rfl⟩ := List.mem_map.mp h
  rfl

theorem Grouped.splitBy_eq (h : Grouped blocks) :
    (logOf blocks).splitBy (fun a b => a.1 = b.1) = blocks.reverse.map Block.log := by
  have hne : ∀ b ∈ blocks, b.log ≠ [] := by
    intro b hb hlog
    exact h.inhabited b hb (List.reverse_eq_nil_iff.mp (List.map_eq_nil_iff.mp hlog))
  refine List.splitBy_eq_iff.mpr ⟨List.flatMap_def, ?_, ?_, ?_⟩
  · intro hnil
    obtain ⟨b, hb, hlog⟩ := List.mem_map.mp hnil
    exact hne b (List.mem_reverse.mp hb) hlog
  · intro run hrun
    obtain ⟨b, -, rfl⟩ := List.mem_map.mp hrun
    apply List.Pairwise.isChain
    apply List.pairwise_of_forall_mem_list
    intro x hx y hy
    rw [decide_eq_true_eq, fst_of_mem_log hx, fst_of_mem_log hy]
  · rw [List.isChain_map, List.isChain_reverse]
    refine (List.IsChain.iff_mem.mp h.apart).imp fun b b' hb => ?_
    obtain ⟨hb, hb', hapart⟩ := hb
    refine ⟨hne b' hb', hne b hb, ?_⟩
    rw [decide_eq_false_iff_not, fst_of_mem_log (List.getLast_mem _), fst_of_mem_log (List.head_mem _)]
    exact hapart.symm

theorem Grouped.ofRun_log (h : Grouped blocks) {b : Block} (hb : b ∈ blocks) {σ : Type}
    (lookup : TypeLookup σ) : ObjectChanges.ofRun lookup b.log = Block.changes <$> b.resolve lookup := by
  have hhead : b.log.head?.map Prod.fst = some b.object := by
    cases hlog : b.log with
    | nil =>
      exact absurd (List.reverse_eq_nil_iff.mp (List.map_eq_nil_iff.mp hlog)) (h.inhabited b hb)
    | cons entry rest =>
      have hmem : entry ∈ b.log := hlog ▸ List.mem_cons_self
      rw [List.head?_cons, Option.map_some, fst_of_mem_log hmem]
  have htype : (b.log.reverse.findSome? fun entry => entry.2.type?).getD Id.nil = b.type := by
    rw [h.typed b hb, Block.log, ← List.map_reverse, List.reverse_reverse, List.findSome?_map]
    rfl
  have hevents : b.log.map Prod.snd = b.items.reverse.map Item.event := by
    rw [Block.log, List.map_map]
    rfl
  rw [ObjectChanges.ofRun, hhead, htype, hevents, Block.resolve]
  split
  · simp only [map_eq_pure_bind, bind_assoc, pure_bind, Block.changes, Option.getD_some]
  · simp only [map_eq_pure_bind, pure_bind, Block.changes, Option.getD_some]

theorem Grouped.ofLog_eq (h : Grouped blocks) {σ : Type} (lookup : TypeLookup σ) :
    ObjectChanges.ofLog lookup (logOf blocks) =
      List.map Block.changes <$> blocks.reverse.mapM (Block.resolve lookup) := by
  rw [ObjectChanges.ofLog, h.splitBy_eq]
  exact Stateful.mapM_map_eq fun b hb => h.ofRun_log (List.mem_reverse.mp hb) lookup

end Blocks

theorem resolveBlocks_eq {σ : Type} (lookup : TypeLookup σ) (blocks : List Block) (s : σ) :
    match (blocks.mapM (Block.resolve lookup)).run s with
    | (.ok blocks', t) => resolveBlocks lookup blocks s = (.ok ⟨⟩, blocks', t)
    | (.error e, t) => ∃ blocks', resolveBlocks lookup blocks s = (.error e, blocks', t) := by
  induction blocks generalizing s with
  | nil => rfl
  | cons b rest ih =>
    rw [Stateful.run_mapM, resolveBlocks]
    rcases (b.resolve lookup).run s with ⟨e | b', t⟩
    · exact ⟨b :: rest, rfl⟩
    · have hrest := ih t
      dsimp only
      rcases hrun : (rest.mapM (Block.resolve lookup)).run t with ⟨e | blocks', u⟩
      · rw [hrun] at hrest
        obtain ⟨blocks', hblocks⟩ := hrest
        exact ⟨b' :: blocks', by rw [hblocks]⟩
      · rw [hrun] at hrest
        dsimp only at hrest ⊢
        rw [hrest]

section Observing

variable {capacity : Nat} {deleted : Option Id} {blocks : List Block} {d d' : Draft}

theorem readType_eq_ok {value : Option Bytes} {type : Option Id} (h : readType value = .ok type) :
    ∀ v ∈ value, ∃ type : Id, v = type.bytes := by
  rintro v rfl
  simp only [readType] at h
  split at h
  next type htype => exact ⟨type, (Id.bytes_of_ofBytes? htype).symm⟩
  next => contradiction

theorem shape_of_observe {c : Change} (h : (observe c).run d = (.ok ⟨⟩, d')) :
    ∃ k : Key, c.key = k.bytes ∧
      ∀ a, k = .object a → ∀ v, v ∈ c.old ∨ v ∈ c.new → ∃ type : Id, v = type.bytes := by
  rw [observe] at h
  cases hkey : Key.ofBytes? c.key with
  | none =>
    rw [hkey] at h
    cases h
  | some k =>
    refine ⟨k, Key.bytes_eq_of_ofBytes? hkey, ?_⟩
    rintro a rfl v hv
    rw [hkey] at h
    obtain ⟨old, hold, h⟩ := run_ofExcept_bind_eq_ok.mp h
    obtain ⟨new, hnew, -⟩ := run_ofExcept_bind_eq_ok.mp h
    rcases hv with hv | hv
    · exact readType_eq_ok hold v hv
    · exact readType_eq_ok hnew v hv

theorem holds_of_observe {c : Change} (hd : Holds capacity deleted blocks d)
    (h : (observe c).run d = (.ok ⟨⟩, d')) :
    Holds capacity (c.deletes deleted) ((c.events deleted).foldl recording blocks) d' := by
  obtain ⟨k, hkey, htype⟩ := shape_of_observe h
  obtain ⟨key, old, new⟩ := c
  obtain rfl : key = k.bytes := hkey
  rw [Change.deletes, Change.events, Key.ofBytes?_bytes]
  exact (adds_observe k htype capacity blocks).ok hd h

theorem holds_of_observe_all {changes : List Change} (hd : Holds capacity deleted blocks d)
    (h : (changes.forM observe).run d = (.ok ⟨⟩, d')) :
    Holds capacity (changes.foldl (fun deleted c => c.deletes deleted) deleted)
      ((Change.log deleted changes).foldl recording blocks) d' := by
  induction changes generalizing deleted blocks d with
  | nil =>
    cases h
    exact hd
  | cons c changes ih =>
    obtain ⟨_, d₁, hc, hrest⟩ := run_bind_eq_ok.mp h
    rw [Change.log, List.foldl_append]
    exact ih (holds_of_observe hd hc) hrest

end Observing

end Draft

theorem Commit.readBlock_eq_ok {b : Except Error BlockView} {o : ObjectChanges}
    (h : readBlock b = .ok o) :
    b.map (fun b => (b.object, b.type, b.events)) = .ok (o.object, o.type, o.events.map .ok) := by
  cases b with
  | error e => contradiction
  | ok view =>
    rw [readBlock, Stateful.ok_bind] at h
    obtain ⟨events, hevents, hend⟩ := Stateful.bind_eq_ok.mp h
    cases hend
    have hmap := Stateful.map_eq_of_mapM_eq_ok hevents
    rw [List.map_id'] at hmap
    exact congrArg (fun events => Except.ok (view.object, view.type, events)) hmap

theorem Commit.decode_eq_ok {c : CommitId} {bs : Bytes} {commit : Commit} (h : decode c bs = .ok commit) :
    ∃ v, RecordView.ofBytes bs = .ok v ∧ v.time = commit.time ∧ v.actor = commit.actor ∧
      v.objects.map (·.map fun b => (b.object, b.type, b.events)) =
        commit.objects.map fun o => .ok (o.object, o.type, o.events.map .ok) := by
  obtain ⟨v, hv, h⟩ := Stateful.bind_eq_ok.mp h
  obtain ⟨objects, hobjects, hend⟩ := Stateful.bind_eq_ok.mp h
  cases hend
  refine ⟨v, hv, rfl, rfl, ?_⟩
  have hread : List.Forall₂ (fun b o => readBlock b = .ok o) v.objects objects := by
    rw [← List.forall₂_map_right_iff, ← List.forall₂_map_left_iff, List.forall₂_eq_eq_eq]
    exact Stateful.map_eq_of_mapM_eq_ok hobjects
  rw [← List.forall₂_eq_eq_eq, List.forall₂_map_left_iff, List.forall₂_map_right_iff]
  exact hread.imp fun _ _ => readBlock_eq_ok

namespace Draft

theorem objectCount_bytes {d : Draft} (hlength : lengthOf d.blocks < 1 <<< 32) :
    RecordBytes.number d.bytes 32 = .ok d.blocks.length := by
  have hcount : Bytes.HasAt d.bytes 32 (Bytes.littleEndian 4 d.blocks.length) := by
    have hwhole : Bytes.HasAt d.bytes 0 d.bytes := List.prefix_rfl
    have hright := hwhole.left.left.right
    simp only [List.length_append, Bytes.length_littleEndian, d.actor.length_bytes] at hright
    exact hright
  exact RecordBytes.number_eq hcount (Nat.lt_of_le_of_lt (length_le_lengthOf d.blocks) hlength)

theorem readsAs_bytes {d : Draft} (htidy : ∀ b ∈ d.blocks, b.Tidy)
    (hlength : lengthOf d.blocks < 1 <<< 32) :
    ReadsAs d.bytes d.time d.actor (d.blocks.reverse.map Block.changes) := by
  obtain ⟨v, hv, htime, hactor, hobjects⟩ := Commit.decode_eq_ok (decode_bytes Id.nil htidy hlength)
  refine ⟨fun c => ?_, v, ?_, Reader.readsOut_of_ofBytes hv, htime, hactor, ?_, hobjects⟩
  · rw [← decode_bytes c htidy hlength]
    exact Reader.comes_decode c _
  · rw [← hv]
    exact Reader.comes_view _
  · rw [RecordView.objectCount, (RecordView.ofBytes_eq_ok hv).1, List.length_map, List.length_reverse]
    exact objectCount_bytes hlength

theorem resolve_readsAs {capacity : Nat} {deleted : Option Id} {blocks : List Block} {d : Draft}
    (hd : Holds capacity deleted blocks d) (hcapacity : capacity ≤ Quota.maxCapacity)
    (hgrouped : Grouped blocks) (htidy : ∀ b ∈ blocks, b.Tidy) {σ : Type} (lookup : TypeLookup σ) (s : σ) :
    match (ObjectChanges.ofLog lookup (logOf blocks)).run s with
    | (.ok objects, t) => ∃ d', (resolve lookup).run (d, s) = (.ok ⟨⟩, d', t) ∧
        ReadsAs d'.bytes d.time d.actor objects ∧ objects.flatMap ObjectChanges.log = logOf blocks
    | (.error e, t) => ∃ d', (resolve lookup).run (d, s) = (.error e, d', t) := by
  obtain rfl := hd.blocks_eq
  have hresolve : (resolve lookup).run (d, s) =
      ((resolveBlocks lookup d.blocks.reverse s).1,
        { d with blocks := (resolveBlocks lookup d.blocks.reverse s).2.1.reverse },
        (resolveBlocks lookup d.blocks.reverse s).2.2) := rfl
  have hblocks := resolveBlocks_eq lookup d.blocks.reverse s
  have hcontents : (resolveBlocks lookup d.blocks.reverse s).2.1.reverse.map Block.contents =
      d.blocks.map Block.contents := by
    rw [List.map_reverse, contents_resolveBlocks, List.map_reverse, List.reverse_reverse]
  have hrun := Stateful.run_map (List.map Block.changes) (d.blocks.reverse.mapM (Block.resolve lookup)) s
  rw [← hgrouped.ofLog_eq] at hrun
  rcases hmap : (d.blocks.reverse.mapM (Block.resolve lookup)).run s with ⟨e | blocks', t⟩
  · rw [hmap] at hblocks hrun
    obtain ⟨blocks', hblocks⟩ := hblocks
    rw [hblocks] at hresolve
    rw [hrun]
    exact ⟨_, hresolve⟩
  · rw [hmap] at hblocks hrun
    dsimp only at hblocks
    rw [hblocks] at hresolve hcontents
    rw [hrun]
    have hlength : lengthOf blocks'.reverse < 1 <<< 32 := by
      have hused := hd.used_le
      have hmax : Quota.maxCapacity < 1 <<< 32 := by decide
      rw [lengthOf_congr hcontents]
      omega
    have hreads := @readsAs_bytes { d with blocks := blocks'.reverse } (tidy_congr hcontents htidy) hlength
    rw [List.reverse_reverse] at hreads
    refine ⟨_, hresolve, hreads, ?_⟩
    have hlog : ∀ b : Block, b.changes.log = b.log := fun b => List.map_map
    rw [List.flatMap_map, ← logOf_congr hcontents, logOf, List.reverse_reverse]
    exact congrArg (List.flatMap · blocks') (funext hlog)

theorem observed_readsAs {capacity : Nat} (hcapacity : capacity ≤ Quota.maxCapacity) (hroom : headLength ≤ capacity)
    {time : Int64} {actor : Id} {changes : List Change} {d : Draft}
    (hrun : (changes.forM observe).run (begun capacity time actor) = (.ok ⟨⟩, d)) {σ : Type} (lookup : TypeLookup σ)
    (s : σ) :
    match (ObjectChanges.ofLog lookup (Change.log none changes)).run s with
    | (.ok objects, t) => ∃ d', (resolve lookup).run (d, s) = (.ok ⟨⟩, d', t) ∧ ReadsAs d'.bytes time actor objects ∧
        objects.flatMap ObjectChanges.log = Change.log none changes
    | (.error e, t) => ∃ d', (resolve lookup).run (d, s) = (.error e, d', t) := by
  have hbegun : Holds capacity none [] (begun capacity time actor) := ⟨rfl, rfl, rfl, rfl, hroom⟩
  have hgrouped : Grouped ((Change.log none changes).foldl recording []) :=
    Grouped.foldl_recording ⟨.nil, nofun, nofun⟩ _
  have htidy : ∀ b ∈ (Change.log none changes).foldl recording [], b.Tidy := tidy_foldl_recording _ nofun
  have hlog : logOf ((Change.log none changes).foldl recording []) = Change.log none changes :=
    logOf_foldl_recording _
  have hhead := (Confined.forM confined_observe changes).head_eq (begun capacity time actor)
  rw [hrun] at hhead
  obtain ⟨rfl, rfl⟩ : d.time = time ∧ d.actor = actor := hhead
  have hreads := resolve_readsAs (holds_of_observe_all hbegun hrun) hcapacity hgrouped htidy lookup s
  rwa [hlog] at hreads

end Draft

end ObjectGraph

import ObjectGraph.Proofs.History.Confinement
import ObjectGraph.Proofs.Session.Blindness
import ObjectGraph.Proofs.Session.Indexing

namespace ObjectGraph

open Stateful (Both Lockstep Triple)

namespace Draft

variable {d d' : Draft} {time time' : Int64} {actor : Id}

theorem start_congr (h : d'.quota.capacity = d.quota.capacity) :
    d'.start time actor = d.start time actor := by
  have hquota : d'.quota.reset = d.quota.reset := by rw [Quota.reset, Quota.reset, h]
  rw [start, start, hquota]

def redated (time : Int64) (d : Draft) : Draft := { d with time }

theorem start_redated : d.start time' actor = (d.start time actor).map (redated time') := by
  rw [start, start]
  cases d.quota.reset.take headLength <;> rfl

theorem Confined.redated {α : Type} {m : Drafting α} (h : Confined m) (time : Int64) (d : Draft) :
    m.run (d.redated time) = ((m.run d).1, (m.run d).2.redated time) := by
  have hrun := h.headed time d.actor d
  obtain ⟨-, hactor⟩ := h.head_eq d
  change m.run (d.redated time) = ((m.run d).1, { (m.run d).2 with time, actor := d.actor }) at hrun
  rw [hrun, ← hactor]
  rfl

theorem capacity_of_start (h : d.start time actor = .ok d') : d'.quota.capacity = d.quota.capacity := by
  obtain ⟨quota, htake, h⟩ := Stateful.bind_eq_ok.mp h
  cases h
  rw [Quota.take] at htake
  split at htake
  · cases htake
    rfl
  · contradiction

end Draft

namespace Indexer

variable {schema : Schema} {i₀ : Indexer}

theorem reset_of_put {i : Indexer} {k v : Bytes} {o : Overlay} (h : i.staged.put k v = .ok o) :
    (Indexer.mk o).reset = i.reset := by
  obtain ⟨quota, hquota, h⟩ := Stateful.bind_eq_ok.mp h
  cases h
  rw [Quota.take] at hquota
  split at hquota
  · cases hquota
    rfl
  · contradiction

theorem stageKey_reset (key : Bytes) (edit : IndexEdit) :
    Triple (fun i => i.reset = i₀) (stageKey key edit) (fun _ i => i.reset = i₀)
      (fun _ i => i.reset = i₀) := by
  apply Triple.get_bind
  intro i hi
  apply Triple.ofExcept_bind
  · rintro o ho _ rfl
    exact (reset_of_put ho).trans hi
  · rintro _ e rfl -
    exact hi

theorem stageValue_reset (object field : Id) (raw : Bytes) (edit : IndexEdit) :
    Triple (fun i => i.reset = i₀) (stageValue object field raw edit) (fun _ i => i.reset = i₀)
      (fun _ i => i.reset = i₀) := by
  rw [stageValue]
  split
  · exact Triple.throw fun _ hi => hi
  · exact Triple.forM (I := fun _ (i : Indexer) => i.reset = i₀) (fun _ _ => stageKey_reset _ _) _

theorem observe_reset (c : Change) :
    Triple (fun i => i.reset = i₀) (observe schema c) (fun _ i => i.reset = i₀)
      (fun _ i => i.reset = i₀) := by
  have hnone : Triple (fun i : Indexer => i.reset = i₀) (pure () : Indexing Unit)
      (fun _ i => i.reset = i₀) (fun _ i => i.reset = i₀) := Triple.pure fun _ hi => hi
  rw [observe]
  split
  · split
    · exact hnone
    · cases c.old with
      | none =>
        cases c.new with
        | none => exact hnone
        | some new => exact stageValue_reset _ _ _ _
      | some old =>
        apply (stageValue_reset _ _ _ _).bind
        intro _
        cases c.new with
        | none => exact hnone
        | some new => exact stageValue_reset _ _ _ _
  · exact hnone

end Indexer

namespace Recorders

variable {r r' : Recorders} {c c' : CommitId} {actor : Id} {schema : Schema} {t : Tables}

def redated (time : Int64) (r : Recorders) : Recorders :=
  { r with draft := r.draft.map (Draft.redated time) }

theorem alike_redated (time : Int64) (r : Recorders) : r.Alike (r.redated time) := by
  refine ⟨?_, rfl⟩
  rw [redated, Option.map_map]
  rfl

theorem start_congr (h : r.Alike r') : r'.start c actor = r.start c actor := by
  obtain ⟨draft, indexer⟩ := r
  obtain ⟨draft', indexer'⟩ := r'
  obtain ⟨hdraft, hindexer⟩ := h
  rw [start, start, hindexer]
  cases draft with
  | none =>
    cases draft' with
    | none => rfl
    | some d' => contradiction
  | some d =>
    cases draft' with
    | none => contradiction
    | some d' =>
      rw [Option.mapM_some, Option.mapM_some, Draft.start_congr (Option.some.inj hdraft)]

theorem start_redated (r : Recorders) (c c' : CommitId) :
    r.start c' actor = (r.start c actor).map (redated (Int64.ofNat c'.millis)) := by
  obtain ⟨draft, indexer⟩ := r
  cases draft with
  | none => rfl
  | some d =>
    rw [start, start, Option.mapM_some, Option.mapM_some,
      @Draft.start_redated d (Int64.ofNat c.millis)]
    cases d.start (Int64.ofNat c.millis) actor <;> rfl

theorem alike_start (h : r.start c actor = .ok r') : r.Alike r' := by
  obtain ⟨draft, indexer⟩ := r
  obtain ⟨draft', hdraft, h⟩ := Stateful.bind_eq_ok.mp h
  cases h
  refine ⟨?_, by cases indexer <;> rfl⟩
  cases draft with
  | none =>
    cases hdraft
    rfl
  | some d =>
    obtain ⟨d', hd, rfl⟩ := Stateful.map_eq_ok.mp hdraft
    exact congrArg some (Draft.capacity_of_start hd)

theorem observeDraft_alike (change : Change) :
    Triple r.Alike (observeDraft change) (fun _ => r.Alike) (fun _ => r.Alike) := by
  apply observeDraft_spec
  · exact fun _ h => h
  · rintro _ indexer ⟨hdraft, hindexer⟩ d rfl
    have hcapacity := (Draft.confined_observe change).capacity d
    rcases hresult : (Draft.observe change).run d with ⟨e | _, d'⟩
    · rw [hresult] at hcapacity
      exact ⟨(congrArg some hcapacity).trans hdraft, hindexer⟩
    · rw [hresult] at hcapacity
      exact ⟨(congrArg some hcapacity).trans hdraft, hindexer⟩

theorem observeIndex_alike (change : Change) :
    Triple r.Alike (observeIndex schema change) (fun _ => r.Alike) (fun _ => r.Alike) := by
  apply observeIndex_spec
  · exact fun _ h => h
  · rintro draft i ⟨hdraft, hindexer⟩
    have hkept (i' : Indexer) (hreset : i'.reset = i.reset) : r.Alike ⟨draft, some i'⟩ :=
      ⟨hdraft, (congrArg some hreset).trans hindexer⟩
    apply (@Indexer.observe_reset schema i.reset change).mono
    · rintro _ rfl
      rfl
    · exact fun _ => hkept
    · exact fun _ => hkept

theorem storeRecord_alike :
    Triple (fun xs => r.Alike xs.2) (storeRecord t c) (fun _ xs => r.Alike xs.2)
      (fun _ xs => r.Alike xs.2) := by
  apply Triple.get_bind
  rintro ⟨x, draft, indexer⟩ hr
  cases draft with
  | none => exact Triple.pure fun _ hxs => hxs ▸ hr
  | some d =>
    apply Triple.ofExcept_bind
    · exact fun _ _ _ _ => hr
    · rintro _ e rfl -
      exact hr

theorem flushIndex_alike :
    Triple (fun xs => r.Alike xs.2) (flushIndex t) (fun _ xs => r.Alike xs.2)
      (fun _ xs => r.Alike xs.2) := by
  apply Triple.get_bind
  rintro ⟨x, draft, indexer⟩ hr
  cases indexer with
  | none => exact Triple.pure fun _ hxs => hxs ▸ hr
  | some i =>
    apply Triple.ofExcept_bind
    · rintro ⟨n, y, _⟩ hflush xs -
      obtain ⟨-, -, rfl⟩ := Indexer.flush_eq_ok hflush
      exact ⟨hr.draft_eq, hr.indexer_eq⟩
    · rintro _ e rfl -
      exact hr

end Recorders

namespace Replay

variable {r : Recorders} {schema : Schema}

theorem write_alike (t : TableId) (change : Change) :
    Triple (fun xs => r.Alike xs.2) (write t change) (fun _ xs => r.Alike xs.2)
      (fun _ xs => r.Alike xs.2) := by
  apply Triple.get_bind
  rintro ⟨x, r'⟩ hr
  dsimp only
  cases change.new with
  | some v => exact Triple.ofExcept_bind (fun _ _ _ _ => hr) (by rintro _ e rfl -; exact hr)
  | none => exact Triple.ofExcept_bind (fun _ _ _ _ => hr) (by rintro _ e rfl -; exact hr)

theorem entry_alike (t : TableId) (e : Entry) :
    Triple (fun xs => r.Alike xs.2) (entry t [Recorders.observeDraft, Recorders.observeIndex schema] e)
      (fun _ xs => r.Alike xs.2) (fun _ xs => r.Alike xs.2) := by
  have hannounce {observer : Observer Recorders} {change : Change}
      (h : Triple r.Alike (observer change) (fun _ => r.Alike) (fun _ => r.Alike)) :
      Triple (fun xs => r.Alike xs.2) (announce observer change) (fun _ xs => r.Alike xs.2)
        (fun _ xs => r.Alike xs.2) :=
    (announce_triple (A := fun _ => True) h).mono (fun _ hxs => ⟨trivial, hxs⟩)
      (fun _ _ hxs => hxs.2) fun _ _ hxs => hxs
  apply Triple.get_bind
  rintro ⟨x, r'⟩ hr
  apply Triple.ofExcept_bind
  · intro table _
    apply Triple.bind (Q := fun _ xs => r.Alike xs.2)
    · apply (Triple.bind (hannounce (Recorders.observeDraft_alike _)) fun _ =>
        Triple.bind_pure (hannounce (Recorders.observeIndex_alike _))).mono _ (fun _ _ h => h)
        fun _ _ h => h
      rintro _ rfl
      exact hr
    · exact fun _ => write_alike t _
  · rintro _ e rfl -
    exact hr

end Replay

theorem Session.publish_alike {r : Recorders} (s : Session) (c : CommitId) :
    Triple (fun xs => r.Alike xs.2) (s.publish c) (fun _ xs => r.Alike xs.2)
      (fun _ xs => r.Alike xs.2) := by
  apply Triple.get_bind
  rintro ⟨x, r'⟩ hr
  apply Triple.ofExcept_bind
  · intro r₁ hstart
    apply Triple.bind (Q := fun _ xs => r.Alike xs.2)
    · exact fun _ _ => hr.trans (Recorders.alike_start hstart)
    intro _
    apply Triple.bind (Q := fun _ xs => r.Alike xs.2)
    · exact (Triple.bind_pure (Triple.forM (I := fun _ xs => r.Alike xs.2)
        (fun e _ => Replay.entry_alike _ e) _)).discard.mono (fun _ h => h) (fun _ _ ⟨_, h⟩ => h)
        fun _ _ h => h
    · exact fun _ => Recorders.storeRecord_alike.bind fun _ => Recorders.flushIndex_alike
  · rintro _ e rfl -
    exact hr

theorem Session.publish_congr (s : Session) (c : CommitId) :
    Lockstep (fun xs ys => ys.1 = xs.1 ∧ xs.2.Alike ys.2) (s.publish c) (s.publish c)
      (fun xs ys => ys.1 = xs.1 ∧ xs.2.Alike ys.2) (fun xs ys => ys.1 = xs.1 ∧ xs.2.Alike ys.2) := by
  apply Lockstep.get_bind
  rintro ⟨x, r⟩ ⟨_, r'⟩ ⟨rfl, hr⟩
  dsimp only
  rw [Recorders.start_congr hr]
  apply Lockstep.ofExcept_bind (Both.refl (fun _ => rfl) _)
  · rintro r₁ _ rfl
    apply Lockstep.bind (Q := Eq)
    · exact fun _ _ _ => ⟨.ok rfl, rfl⟩
    · exact fun _ => Lockstep.refl.mono (fun _ _ h => h) (fun _ _ h => h ▸ ⟨rfl, .refl _⟩)
        fun _ _ h => h ▸ ⟨rfl, .refl _⟩
  · rintro _ _ ⟨rfl, rfl⟩
    exact ⟨rfl, hr⟩

end ObjectGraph

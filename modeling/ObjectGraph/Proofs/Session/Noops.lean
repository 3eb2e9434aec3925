import ObjectGraph.Proofs.Session.Adoption
import ObjectGraph.Proofs.Session.Filing
import ObjectGraph.Proofs.Workspace.Changes

namespace ObjectGraph

open Stateful (Triple)

structure Session.Idle (base : Table) (s : Session) : Prop where
  valid : s.workspace.Valid KeyOrder.lexicographic
  base_eq : s.workspace.base = base
  staged_eq : ∀ k v, s.workspace.overlay.get? k = some v → Staged.payload? v = base.get? k

namespace Session.Idle

variable {base : Table} {s : Session} {k v : Bytes} {w : Workspace}

theorem get?_eq (h : s.Idle base) (k : Key) : s.get? k = base.get? k.bytes := by
  rw [Session.get?, Workspace.get?, Workspace.lookup?, h.base_eq]
  cases hk : s.workspace.overlay.get? k.bytes with
  | none => simp
  | some v => simp [← h.staged_eq _ _ hk]

theorem staging (h : s.Idle base) : s.Staging base s.workspace.overlay.get? := ⟨h.valid, h.base_eq, rfl⟩

theorem put (h : s.Idle base) (hk : base.get? k = some v) (hput : s.workspace.put k v = .ok w) :
    Idle base { s with workspace := w } := by
  obtain ⟨hvalid, hbase, hstaged⟩ := h.staging.put hput
  refine ⟨hvalid, hbase, fun j u hu => ?_⟩
  rw [hstaged, Function.update_apply] at hu
  split at hu
  next hj =>
    cases hu
    rw [hj, hk, Staged.payload?_upsert]
  next => exact h.staged_eq j u hu

theorem delete (h : s.Idle base) (hk : base.get? k = none) (hdelete : s.workspace.delete k = .ok w) :
    Idle base { s with workspace := w } := by
  obtain ⟨hvalid, hbase, hstaged⟩ := h.staging.delete hdelete
  refine ⟨hvalid, hbase, fun j u hu => ?_⟩
  rw [hstaged, Function.update_apply, Staged.remnant, hk] at hu
  split at hu
  next => contradiction
  next => exact h.staged_eq j u hu

theorem noops (h : s.Idle base) : ∀ c ∈ s.workspace.changes base, c.IsNoop := by
  intro c hc
  obtain ⟨e, he, rfl⟩ := List.mem_map.mp hc
  have hstaged : s.workspace.overlay.get? e.1 = some e.2 := by
    rw [h.valid.overlay.get?_eq, Dictionary.get?_eq_some_iff h.valid.overlay.ascending]
    exact he
  exact (h.staged_eq _ _ hstaged).symm

end Session.Idle

namespace Editing

variable {base : Table} {v : Bytes} {a type field : Id}

theorem keeps_idle_put {k : Key} (hk : base.get? k.bytes = some v) : Keeps (Session.Idle base) (put k v) := by
  apply Triple.get_bind
  intro s hs
  apply Triple.ofExcept_bind
  · rintro w hw _ rfl
    exact hs.put hk hw
  · exact fun t _ ht _ => ht ▸ hs

theorem keeps_idle_erase {bs : Bytes} (hbs : base.get? bs = none) : Keeps (Session.Idle base) (erase bs) := by
  apply Triple.get_bind
  intro s hs
  apply Triple.ofExcept_bind
  · rintro w hw _ rfl
    exact hs.delete hbs hw
  · exact fun t _ ht _ => ht ▸ hs

theorem keeps_idle_ensureObject (ha : base.get? (Key.object a).bytes = some type.bytes) (hne : type ≠ Id.nil) :
    Keeps (Session.Idle base) (Schema.ensureObject type a) := by
  apply ask_bind fun _ _ hs _ => hs
  rintro found s ⟨hs, hfound⟩
  have htype : s.type? a = .ok (some type) := Session.type?_eq_some_iff.mpr ⟨(hs.get?_eq _).trans ha, hne⟩
  cases hfound.symm.trans htype
  dsimp only
  rw [if_pos rfl]
  exact hs

theorem keeps_idle_setPart {v : Option Value} (hv : base.get? (Key.field a field).bytes = v.map Value.encode) :
    Keeps (Session.Idle base) (Schema.setPart a field v) := by
  refine Keeps.requireWritable.bind fun _ => (Keeps.ask _).bind fun _ => (Keeps.ask _).bind fun _ =>
    (Keeps.ofExcept _).bind fun _ => ?_
  cases v with
  | none => exact keeps_idle_erase hv
  | some v => exact keeps_idle_put hv

end Editing

theorem Schema.keeps_idle_store {s : Schema} {base : Table} (hbase : base.Valid KeyOrder.lexicographic)
    (htells : ∀ d ∈ s.own, (recorded base.entries).Tells d) : Editing.Keeps (Session.Idle base) s.store := by
  rw [store_eq]
  apply Editing.Keeps.forM_of_mem
  intro d hd
  have hget (k : Key) : base.get? k.bytes = recorded base.entries k := hbase.get?_eq _
  apply (Editing.keeps_idle_ensureObject ((hget _).trans (htells d hd).object_eq) d.kind_ne_nil).bind
  intro _
  exact Editing.Keeps.forM_of_mem fun p hp =>
    Editing.keeps_idle_setPart ((hget _).trans ((htells d hd).part_eq p hp))

theorem Draft.observe_noop {c : Change} (h : c.IsNoop) (d : Draft) :
    Triple (· = d) (observe c) (fun _ d' => d' = d) (fun _ _ => True) := by
  have hgated {gate : Draft → Prop} [DecidablePred gate] {m : Drafting Unit} :
      Triple (· = d) (do unless gate (← get) ∨ c.IsNoop do m) (fun _ d' => d' = d) (fun _ _ => True) := by
    apply Triple.get_bind
    rintro _ rfl
    rw [if_pos (.inr h)]
    exact Triple.pure fun _ hd => hd
  rw [observe]
  split
  · exact Triple.throw fun _ _ => trivial
  · rw [observeObject, ← show c.old = c.new from h]
    apply Triple.ofExcept_bind
    · intro type htype
      rw [htype, Stateful.ofExcept_ok_bind]
      cases type with
      | none => exact Triple.pure fun _ hd => hd
      | some type =>
        dsimp only
        rw [if_pos rfl]
        exact Triple.pure fun _ hd => hd
    · exact fun _ _ _ _ => trivial
  · exact hgated
  · exact hgated

namespace Recorders

variable {c : Change} {r r' : Recorders}

theorem observeDraft_noop (h : c.IsNoop) (r : Recorders) :
    Triple (· = r) (observeDraft c) (fun _ r' => r' = r) (fun _ _ => True) := by
  apply observeDraft_spec
  · exact fun _ hr => hr
  · rintro d indexer rfl
    exact (Draft.observe_noop h d).mono (fun _ hd => hd) (fun _ _ hd => hd ▸ rfl) fun _ _ _ => trivial

theorem observeIndex_noop (h : c.IsNoop) (schema : Schema) (r : Recorders) :
    Triple (· = r) (observeIndex schema c) (fun _ r' => r' = r) (fun _ _ => True) := by
  apply observeIndex_spec
  · exact fun _ hr => hr
  · rintro draft i rfl
    rw [Indexer.observe_of_idle fun _ _ _ => .inl h]
    exact Triple.pure fun _ hi => hi ▸ rfl

theorem start_blank {id : CommitId} {actor : Id} (h : r.start id actor = .ok r') :
    (∀ d, r'.draft = some d → d.blocks = []) ∧ ∀ i, r'.indexer = some i → i.staged.entries = [] := by
  obtain ⟨draft, indexer⟩ := r
  obtain ⟨draft', hdraft, h⟩ := Stateful.bind_eq_ok.mp h
  cases h
  constructor
  · rintro _ rfl
    cases draft with
    | none => cases hdraft
    | some d =>
      obtain ⟨d', hstart, hd'⟩ := Stateful.map_eq_ok.mp hdraft
      obtain ⟨-, rfl⟩ := Draft.start_eq_ok.mp hstart
      cases hd'
      rfl
  · intro i hi
    obtain ⟨_, -, rfl⟩ := Option.map_eq_some_iff.mp hi
    rfl

end Recorders

namespace Session

variable {s : Session} {c : CommitId} {x x' : WriteTxn} {r r' : Recorders} {table : Table}

theorem watch_noops {changes : List Change} (h : ∀ change ∈ changes, change.IsNoop) (r : Recorders) :
    Triple (· = r) (watch s.observers changes) (fun _ r' => r' = r) (fun _ _ => True) := by
  induction changes with
  | nil => exact Triple.pure fun _ hr => hr
  | cons change changes ih =>
    obtain ⟨hnoop, hnoops⟩ := List.forall_mem_cons.mp h
    have hobservers : Triple (· = r) (s.observers.forM fun observer => observer change) (fun _ r' => r' = r)
        (fun _ _ => True) :=
      (Recorders.observeDraft_noop hnoop r).bind fun _ =>
        (Recorders.observeIndex_noop hnoop s.catalog.schema r).bind_pure
    exact hobservers.bind fun _ => ih hnoops

theorem Idle.tables_of_publish (hs : s.Idle table) (h : (s.publish c).run (x, r) = (.ok ⟨⟩, x', r'))
    (htable : x.working.tables[s.catalog.tables.objects]? = some table) :
    x'.working.tables = x.working.tables := by
  have hvalid : table.Valid KeyOrder.lexicographic := hs.base_eq ▸ hs.valid.base
  have hoverlay := hs.valid.overlay
  obtain ⟨r₁, n, y, r₂, z, hstart, hreplay, hstore, hflush⟩ := publish_eq_ok h
  obtain ⟨-, hentries, hreplaces⟩ := Workspace.replay_eq_ok htable hreplay
  obtain rfl : r₂ = r₁ := (watch_noops hs.noops r₁).ok rfl
    (Replay.watch_of_entries hoverlay.ascending htable hvalid hentries)
  obtain ⟨hdraft, hindexer⟩ := Recorders.start_blank hstart
  have hy : y.working.tables = x.working.tables := by
    obtain ⟨found, hfound, htables⟩ := hreplaces.tables_eq
    cases htable.symm.trans hfound
    rw [hvalid.order_eq, (Replay.override_eq_iff hvalid hoverlay).mpr hs.noops] at htables
    obtain ⟨hlt, hget⟩ := List.getElem?_eq_some_iff.mp htable
    rw [htables, ← hget]
    exact List.set_getElem_self hlt
  have hz : z = y := by
    obtain ⟨-, hstored⟩ := Recorders.storeRecord_eq_ok hstore
    split at hstored
    · exact hstored
    next d hd =>
      rw [Draft.store, Draft.isEmpty, hdraft d hd] at hstored
      exact (Except.ok.inj hstored).symm
  have hx' : x' = z := by
    have hflushed := Recorders.flushIndex_eq_ok hflush
    split at hflushed
    · exact hflushed
    next i hi =>
      obtain ⟨_, _, hflushed⟩ := hflushed
      rw [Indexer.flush, hindexer i hi] at hflushed
      cases hflushed
      rfl
  rw [hx', hz, hy]

end Session

end ObjectGraph

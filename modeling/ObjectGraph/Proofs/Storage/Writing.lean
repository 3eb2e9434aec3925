import ObjectGraph.Proofs.Overlay.Contents
import ObjectGraph.Proofs.Stateful
import ObjectGraph.Storage.Store

namespace ObjectGraph

def Error.IsShortage : Error → Prop
  | .arenaExhausted .. | .store (.mapFull ..) => True
  | _ => False

theorem Error.IsExhaustion.isShortage {e : Error} (h : e.IsExhaustion) : e.IsShortage := by
  cases e <;> trivial

theorem Snapshot.table?_eq_ok_iff {s : Snapshot} {t : TableId} {table : Table} :
    s.table? t = .ok table ↔ s.tables[t]? = some table := by
  rw [table?]
  cases s.tables[t]? <;> simp

theorem Snapshot.table_eq {s : Snapshot} {t : TableId} {table : Table}
    (h : s.tables[t]? = some table) : s.table t = table := by
  simp [Snapshot.table, List.getD_eq_getElem?_getD, h]

def totalSize : List Entry → Nat
  | [] => 0
  | e :: es => entrySize e + totalSize es

def Table.withEntries (table : Table) (entries : List Entry) : Table := { table with entries }

namespace WriteTxn

structure Replaces (t : TableId) (entries : List Entry) (w w' : WriteTxn) : Prop where
  mapSize_eq : w'.mapSize = w.mapSize
  tables_eq : ∃ table, w.working.tables[t]? = some table ∧
    w'.working.tables = w.working.tables.set t (table.withEntries entries)

variable {t u : TableId} {w w' w'' : WriteTxn} {table : Table} {es es' : List Entry}

theorem Replaces.refl (h : w.working.tables[t]? = some table) : Replaces t table.entries w w := by
  obtain ⟨hlt, rfl⟩ := List.getElem?_eq_some_iff.mp h
  exact ⟨rfl, _, h, (List.set_getElem_self hlt).symm⟩

theorem Replaces.getElem?_self (h : Replaces t es w w') (ht : w.working.tables[t]? = some table) :
    w'.working.tables[t]? = some (table.withEntries es) := by
  obtain ⟨table', ht', htables⟩ := h.tables_eq
  cases ht.symm.trans ht'
  obtain ⟨hlt, -⟩ := List.getElem?_eq_some_iff.mp ht
  rw [htables, List.getElem?_set_self hlt]

theorem Replaces.getElem?_ne (h : Replaces t es w w') (hu : u ≠ t) :
    w'.working.tables[u]? = w.working.tables[u]? := by
  obtain ⟨table', -, htables⟩ := h.tables_eq
  rw [htables, List.getElem?_set_ne hu.symm]

structure Frame (touched : TableId → Prop) (w w' : WriteTxn) : Prop where
  names_eq : w'.working.tables.map Table.name = w.working.tables.map Table.name
  getElem?_eq : ∀ u, ¬ touched u → w'.working.tables[u]? = w.working.tables[u]?

theorem Frame.length_eq {touched : TableId → Prop} (h : Frame touched w w') :
    w'.working.tables.length = w.working.tables.length := by
  simpa only [List.length_map] using congrArg List.length h.names_eq

theorem Frame.refl (touched : TableId → Prop) (w : WriteTxn) : Frame touched w w :=
  ⟨rfl, fun _ _ => rfl⟩

theorem Frame.trans {touched : TableId → Prop} (h : Frame touched w w') (h' : Frame touched w' w'') :
    Frame touched w w'' :=
  ⟨h'.names_eq.trans h.names_eq, fun u hu => (h'.getElem?_eq u hu).trans (h.getElem?_eq u hu)⟩

theorem Frame.mono {touched touched' : TableId → Prop} (h : Frame touched w w')
    (hsub : ∀ u, touched u → touched' u) : Frame touched' w w' :=
  ⟨h.names_eq, fun u hu => h.getElem?_eq u fun hu' => hu (hsub u hu')⟩

theorem Frame.foldlM {α : Type} {f : WriteTxn → α → Except Error WriteTxn} {touched : TableId → Prop}
    (hstep : ∀ w a w', f w a = .ok w' → Frame touched w w') {l : List α}
    (h : l.foldlM f w = .ok w') : Frame touched w w' :=
  Stateful.foldlM_induction (I := Frame touched w)
    (fun _ a _ hb hstep' => hb.trans (hstep _ a _ hstep')) (.refl touched w) h

theorem Replaces.frame (h : Replaces t es w w') : Frame (· = t) w w' := by
  refine ⟨?_, fun u hu => h.getElem?_ne hu⟩
  obtain ⟨table, htable, htables⟩ := h.tables_eq
  have hname : (w.working.tables.map Table.name)[t]? = some table.name := by
    rw [List.getElem?_map, htable]
    rfl
  obtain ⟨hlt, hname⟩ := List.getElem?_eq_some_iff.mp hname
  rw [htables, List.map_set]
  change (w.working.tables.map Table.name).set t table.name = _
  rw [← hname, List.set_getElem_self]

theorem Replaces.trans (h : Replaces t es w w') (h' : Replaces t es' w' w'') :
    Replaces t es' w w'' := by
  obtain ⟨table, ht, htables⟩ := h.tables_eq
  obtain ⟨table', ht', htables'⟩ := h'.tables_eq
  cases ht'.symm.trans (h.getElem?_self ht)
  refine ⟨h'.mapSize_eq.trans h.mapSize_eq, table, ht, ?_⟩
  rw [htables', htables, List.set_set]
  rfl

theorem put_eq_ok_iff {k v : Bytes} (ht : w.working.tables[t]? = some table) :
    w.put t k v = .ok w' ↔
      w.working.size - ((table.find? k).map entrySize).getD 0 + entrySize (k, v) ≤ w.mapSize ∧
        w' = w.withTable t (table.insert k v)
          (w.working.size - ((table.find? k).map entrySize).getD 0 + entrySize (k, v)) := by
  simp only [put, Snapshot.table?_eq_ok_iff.mpr ht, bind, Except.bind, pure, Except.pure, throw,
    throwThe, MonadExceptOf.throw]
  split
  next hlt =>
    constructor
    · rintro ⟨⟩
    · rintro ⟨h, -⟩
      omega
  next hlt =>
    rw [Except.ok.injEq]
    exact ⟨fun h => ⟨by omega, h.symm⟩, fun h => h.2.symm⟩

theorem put_spec {k v : Bytes} (ht : w.working.tables[t]? = some table)
    (h : w.put t k v = .ok w') :
    Replaces t (Dictionary.insert table.order k v table.entries) w w' ∧
      w'.working.size ≤ w.working.size + entrySize (k, v) := by
  obtain ⟨-, rfl⟩ := (put_eq_ok_iff ht).mp h
  refine ⟨⟨rfl, table, ht, rfl⟩, ?_⟩
  simp only [withTable]
  omega

theorem put_error {k v : Bytes} {e : Error} (ht : w.working.tables[t]? = some table)
    (h : w.put t k v = .error e) : e.IsShortage := by
  simp only [put, Snapshot.table?_eq_ok_iff.mpr ht, Stateful.ok_bind] at h
  split at h
  · cases h
    trivial
  · cases h

theorem put_isOk {k v : Bytes} (ht : w.working.tables[t]? = some table)
    (h : w.working.size + entrySize (k, v) ≤ w.mapSize) : ∃ w', w.put t k v = .ok w' :=
  ⟨_, (put_eq_ok_iff ht).mpr ⟨by omega, rfl⟩⟩

theorem delete_eq {k : Bytes} (ht : w.working.tables[t]? = some table) :
    w.delete t k = .ok ((table.find? k).isSome,
      w.withTable t (table.erase k) (w.working.size - ((table.find? k).map entrySize).getD 0)) := by
  simp only [delete, Snapshot.table?_eq_ok_iff.mpr ht, bind, Except.bind, pure, Except.pure]
  cases hf : table.find? k with
  | none =>
    have herase : table.erase k = table := by
      rw [Table.erase, Dictionary.erase_of_find?_eq_none hf]
    obtain ⟨hlt, rfl⟩ := List.getElem?_eq_some_iff.mp ht
    rw [herase, withTable, List.set_getElem_self]
    rfl
  | some e => rfl

theorem delete_spec {k : Bytes} (ht : w.working.tables[t]? = some table) :
    ∃ found w', w.delete t k = .ok (found, w') ∧
      Replaces t (Dictionary.erase table.order k table.entries) w w' ∧
      w'.working.size ≤ w.working.size :=
  ⟨_, _, delete_eq ht, ⟨rfl, table, ht, rfl⟩, Nat.sub_le ..⟩

theorem frame_of_put {k v : Bytes} (h : w.put t k v = .ok w') : Frame (· = t) w w' := by
  obtain ⟨table, htable, -⟩ := Stateful.bind_eq_ok.mp h
  exact (put_spec (Snapshot.table?_eq_ok_iff.mp htable) h).1.frame

theorem frame_of_delete {k : Bytes} {found : Bool} (h : w.delete t k = .ok (found, w')) :
    Frame (· = t) w w' := by
  obtain ⟨table, htable, -⟩ := Stateful.bind_eq_ok.mp h
  obtain ⟨_, _, hdelete, hreplaces, -⟩ := delete_spec (k := k) (Snapshot.table?_eq_ok_iff.mp htable)
  cases h.symm.trans hdelete
  exact hreplaces.frame

theorem shortage_of_foldlM {α : Type} {f : WriteTxn → α → Except Error WriteTxn}
    {touched : TableId → Prop} (ht : t < w.working.tables.length)
    (hstep : ∀ w a w', f w a = .ok w' → Frame touched w w')
    (hfails : ∀ w a e table, w.working.tables[t]? = some table → f w a = .error e → e.IsShortage)
    {l : List α} {e : Error} (h : l.foldlM f w = .error e) : e.IsShortage := by
  apply Stateful.foldlM_error (I := fun w : WriteTxn => t < w.working.tables.length) _ _ ht h
  · exact fun w a w' hlt hw' => (hstep w a w' hw').length_eq ▸ hlt
  · exact fun w a e hlt he => hfails w a e _ (List.getElem?_eq_getElem hlt) he

end WriteTxn

end ObjectGraph

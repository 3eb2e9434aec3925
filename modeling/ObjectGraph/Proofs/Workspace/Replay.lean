import ObjectGraph.Proofs.KeyOrder
import ObjectGraph.Proofs.Stateful
import ObjectGraph.Proofs.Storage.Writing
import ObjectGraph.Proofs.Workspace.View
import ObjectGraph.Workspace.Replay

namespace ObjectGraph

open Stateful

variable {σ : Type} {t : TableId} {observers : List (Observer σ)} {x x' : WriteTxn} {s s' : σ}
  {table : Table} {e : Entry}

theorem Table.Valid.override {order : KeyOrder} [Std.TransCmp order] (h : table.Valid order)
    (staged : List Entry) : (table.withEntries (Staged.override order table.entries staged)).Valid order :=
  ⟨h.order_eq, Staged.ascending_override h.ascending⟩

theorem Table.Valid.apply {order : KeyOrder} [Std.TransCmp order] (h : table.Valid order) (e : Entry) :
    (table.withEntries (Staged.apply table.order table.entries e)).Valid order := by
  obtain rfl := h.order_eq
  exact h.override [e]

theorem Table.Valid.get?_override {base : Table} {overlay : Overlay}
    (hbase : base.Valid KeyOrder.lexicographic) (hoverlay : overlay.Valid KeyOrder.lexicographic) (k : Bytes) :
    (base.withEntries (Staged.override KeyOrder.lexicographic base.entries overlay.entries)).get? k =
      (overlay.get? k).elim (base.get? k) Staged.payload? := by
  rw [hbase.get?_eq, hoverlay.get?_eq]
  change Dictionary.get? base.order k (Staged.override _ _ _) = _
  rw [hbase.order_eq, Dictionary.get?, Staged.find?_override hbase.ascending hoverlay.ascending,
    Dictionary.get?]
  cases Dictionary.find? KeyOrder.lexicographic k overlay.entries with
  | none => rfl
  | some e => cases h : Staged.payload? e.2 <;> simp [h]

namespace Replay

theorem announce_run (observer : Observer σ) (c : Change) :
    (announce observer c).run (x, s) = (((observer c).run s).1, x, ((observer c).run s).2) := rfl

theorem announceAll_run (c : Change) :
    (observers.forM (announce · c)).run (x, s) =
      (((observers.forM fun observer => observer c).run s).1, x,
        ((observers.forM fun observer => observer c).run s).2) := by
  induction observers generalizing s with
  | nil => rfl
  | cons observer observers ih =>
    change ((announce observer c >>= fun _ => observers.forM (announce · c)).run (x, s)) =
      (((observer c >>= fun _ => observers.forM fun observer => observer c).run s).1, x,
        ((observer c >>= fun _ => observers.forM fun observer => observer c).run s).2)
    rw [run_bind, run_bind, announce_run]
    rcases (observer c).run s with ⟨cause | _, s'⟩
    · rfl
    · exact ih

theorem announceAll_fst (c : Change) :
    ((observers.forM (announce · c)).run (x, s)).2.1 = x := by
  rw [announceAll_run]

theorem announceAll_nil (c : Change) :
    (([] : List (Observer σ)).forM (announce · c)).run (x, s) = (.ok ⟨⟩, x, s) := rfl

theorem write_eq_ok {c : Change} (ht : x.working.tables[t]? = some table)
    (h : (write t c).run (x, s) = (.ok ⟨⟩, x', s')) :
    s' = s ∧ x.Replaces t
      (match c.new with
        | some v => Dictionary.insert table.order c.key v table.entries
        | none => Dictionary.erase table.order c.key table.entries) x' := by
  obtain ⟨key, old, new⟩ := c
  cases new with
  | some v =>
    simp only [write, run_bind, run_get, run_ofExcept] at h
    cases hput : x.put t key v with
    | error e =>
      rw [hput] at h
      cases h
    | ok y =>
      simp only [hput, run_set] at h
      cases h
      exact ⟨rfl, (WriteTxn.put_spec ht hput).1⟩
  | none =>
    obtain ⟨found, y, hdelete, hreplaces, -⟩ := WriteTxn.delete_spec (k := key) ht
    simp only [write, run_bind, run_get, run_ofExcept, hdelete, run_set] at h
    cases h
    exact ⟨rfl, hreplaces⟩

theorem write_error {c : Change} {cause : Error} (ht : x.working.tables[t]? = some table)
    (h : (write t c).run (x, s) = (.error cause, x', s')) :
    x' = x ∧ s' = s ∧ ∃ v, c.new = some v ∧ x.put t c.key v = .error cause := by
  obtain ⟨key, old, new⟩ := c
  cases new with
  | some v =>
    simp only [write, run_bind, run_get, run_ofExcept] at h
    cases hput : x.put t key v with
    | error cause' =>
      rw [hput] at h
      cases h
      exact ⟨rfl, rfl, v, rfl, hput⟩
    | ok y =>
      simp only [hput, run_set] at h
      cases h
  | none =>
    obtain ⟨found, y, hdelete, -⟩ := WriteTxn.delete_spec (k := key) ht
    simp only [write, run_bind, run_get, run_ofExcept, hdelete, run_set] at h
    cases h

def changeOf (table : Table) (e : Entry) : Change := ⟨e.1, table.get? e.1, Staged.payload? e.2⟩

theorem changeOf_apply {order : KeyOrder} [Std.TransCmp order] (hvalid : table.Valid order) {a : Entry}
    (h : order e.1 a.1 = .lt) :
    changeOf (table.withEntries (Staged.apply table.order table.entries e)) a = changeOf table a := by
  have hne : ¬ order a.1 e.1 = .eq := by
    rw [Std.OrientedCmp.gt_of_lt h]
    nofun
  have hget : Dictionary.get? table.order a.1 (Staged.apply table.order table.entries e) =
      Dictionary.get? table.order a.1 table.entries := by
    rw [hvalid.order_eq, Dictionary.get?, Staged.find?_apply hvalid.ascending, if_neg hne, Dictionary.get?]
  rw [changeOf, changeOf, Table.get?, Table.get?]
  exact congrArg (fun old => (⟨a.1, old, Staged.payload? a.2⟩ : Change)) hget

theorem entry_run (ht : x.working.tables[t]? = some table) :
    (entry t observers e).run (x, s) =
      ((observers.forM (announce · (changeOf table e))) >>= fun _ =>
        write t (changeOf table e)).run (x, s) := by
  simp only [entry, run_bind, run_get, Snapshot.table?_eq_ok_iff.mpr ht, run_ofExcept]
  rfl

theorem entry_eq_ok (ht : x.working.tables[t]? = some table)
    (h : (entry t observers e).run (x, s) = (.ok ⟨⟩, x', s')) :
    (observers.forM (announce · (changeOf table e))).run (x, s) = (.ok ⟨⟩, x, s') ∧
      x.Replaces t (Staged.apply table.order table.entries e) x' := by
  rw [entry_run ht] at h
  obtain ⟨_, ⟨y, s''⟩, hseen, hwrite⟩ := run_bind_eq_ok.mp h
  have hx : ((observers.forM (announce · (changeOf table e))).run (x, s)).2.1 = x := announceAll_fst _
  rw [hseen] at hx
  cases hx
  obtain ⟨rfl, hreplaces⟩ := write_eq_ok ht hwrite
  exact ⟨hseen, hreplaces⟩

theorem entries_eq_ok {es : List Entry} (ht : x.working.tables[t]? = some table)
    (h : (es.forM (entry t observers)).run (x, s) = (.ok ⟨⟩, x', s')) :
    x.Replaces t (Staged.override table.order table.entries es) x' := by
  induction es generalizing x s table with
  | nil =>
    cases h
    exact .refl ht
  | cons e es ih =>
    obtain ⟨_, ⟨y, s''⟩, hentry, hrest⟩ := run_bind_eq_ok.mp h
    obtain ⟨-, hreplaces⟩ := entry_eq_ok ht hentry
    exact hreplaces.trans (ih (hreplaces.getElem?_self ht) hrest)

theorem entries_isOk {es : List Entry} (ht : x.working.tables[t]? = some table)
    (hroom : x.working.size + totalSize es ≤ x.mapSize) :
    ∃ x', (es.forM (entry t ([] : List (Observer σ)))).run (x, s) = (.ok ⟨⟩, x', s) := by
  induction es generalizing x table with
  | nil => exact ⟨x, rfl⟩
  | cons e es ih =>
    rw [totalSize] at hroom
    obtain ⟨y, hrun, hreplaces, hsize⟩ : ∃ y,
        (entry t ([] : List (Observer σ)) e).run (x, s) = (.ok ⟨⟩, y, s) ∧
          x.Replaces t (Staged.apply table.order table.entries e) y ∧
          y.working.size ≤ x.working.size + entrySize e := by
      rw [entry_run ht, run_bind_of_ok (announceAll_nil _), write, changeOf, Staged.apply]
      simp only [run_bind, run_get]
      cases hp : Staged.payload? e.2 with
      | some v =>
        have hv : entrySize (e.1, v) ≤ entrySize e := by
          simp only [entrySize, Staged.payload?_eq_some_iff.mp hp, List.length_cons]
          omega
        obtain ⟨y, hput⟩ := WriteTxn.put_isOk (v := v) (k := e.1) ht (by omega)
        obtain ⟨hreplaces, hsize⟩ := WriteTxn.put_spec ht hput
        exact ⟨y, by simp [run_bind, hput], hreplaces, by omega⟩
      | none =>
        obtain ⟨found, y, hdelete, hreplaces, hsize⟩ := WriteTxn.delete_spec (k := e.1) ht
        exact ⟨y, by simp [run_bind, hdelete], hreplaces, by omega⟩
    have hmap := hreplaces.mapSize_eq
    obtain ⟨x', hrest⟩ := ih (hreplaces.getElem?_self ht) (by omega)
    exact ⟨x', run_bind_eq_ok.mpr ⟨⟨⟩, _, hrun, hrest⟩⟩

end Replay

theorem Workspace.replay_eq_ok {w : Workspace} {n : Nat} (ht : x.working.tables[t]? = some table)
    (h : (w.replay t observers).run (x, s) = (.ok n, x', s')) :
    n = w.overlay.entries.length ∧
      (w.overlay.entries.forM (Replay.entry t observers)).run (x, s) = (.ok ⟨⟩, x', s') ∧
      x.Replaces t (Staged.override table.order table.entries w.overlay.entries) x' := by
  obtain ⟨_, ⟨y, s''⟩, hentries, hend⟩ := run_bind_eq_ok.mp h
  cases hend
  exact ⟨rfl, hentries, Replay.entries_eq_ok ht hentries⟩

end ObjectGraph

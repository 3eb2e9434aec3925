import ObjectGraph.Proofs.KeyOrder
import ObjectGraph.Proofs.Overlay.Contents
import ObjectGraph.Proofs.Storage.Reading
import ObjectGraph.Proofs.Workspace.Override
import ObjectGraph.Workspace.Basic

namespace ObjectGraph

open Dictionary (Ascending)
open Std (TransCmp)

variable {order : KeyOrder}

theorem Dictionary.mem_takeWhile_prefix {d : List Entry} (hd : Ascending KeyOrder.lexicographic d)
    {start : Bytes} {e : Entry} :
    e ∈ (startingAt KeyOrder.lexicographic start d).takeWhile (fun e => start.isPrefixOf e.1) ↔
      e ∈ d ∧ start <+: e.1 := by
  rw [mem_takeWhile_startingAt hd, List.isPrefixOf_iff_prefix]
  · intro e he hprefix
    exact Ordering.isLE_iff_ne_gt.mp (KeyOrder.isLE_of_prefix (List.isPrefixOf_iff_prefix.mp hprefix))
  · intro a ha b hb hka hab hprefix
    have hle : (compare a.1 b.1).isLE := Ordering.isLE_of_eq_lt hab
    exact List.isPrefixOf_iff_prefix.mpr (KeyOrder.prefix_of_between
      (Ordering.isLE_iff_ne_gt.mpr hka) hle (List.isPrefixOf_iff_prefix.mp hprefix))

theorem Dictionary.isSome_get? {κ ν : Type} {order : κ → κ → Ordering} {k : κ} {d : List (κ × ν)} :
    (get? order k d).isSome = (find? order k d).isSome := by simp [get?]

namespace Workspace

structure Valid (order : KeyOrder) (w : Workspace) : Prop where
  base : w.base.Valid order
  overlay : w.overlay.Valid order

def view (w : Workspace) : List Entry :=
  Staged.override w.base.order w.base.entries w.overlay.entries

variable [TransCmp order] {w w' : Workspace}

omit [TransCmp order] in
theorem create_spec {base : Table} (hb : base.Valid order) {capacity pageSize : Nat}
    (h : create base capacity pageSize = .ok w) :
    w.Valid order ∧ w.base = base ∧ w.overlay.entries = [] := by
  simp only [create, bind, Except.bind, pure, Except.pure] at h
  split at h
  · contradiction
  next o ho =>
    cases h
    have ⟨hvalid, hentries⟩ := Overlay.create_spec ho
    exact ⟨⟨hb, hb.order_eq ▸ hvalid⟩, rfl, hentries⟩

omit [TransCmp order] in
theorem view_of_entries_eq_nil (h : w.overlay.entries = []) : w.view = w.base.entries := by
  rw [view, h]
  rfl

theorem Valid.ascending_view (h : w.Valid order) : Ascending order w.view := by
  rw [view, h.base.order_eq]
  exact Staged.ascending_override h.base.ascending

theorem Valid.find?_view (h : w.Valid order) (k : Bytes) :
    Dictionary.find? order k w.view =
      match Dictionary.find? order k w.overlay.entries with
      | some e => (Staged.payload? e.2).map (e.1, ·)
      | none => Dictionary.find? order k w.base.entries := by
  rw [view, h.base.order_eq]
  exact Staged.find?_override h.base.ascending h.overlay.ascending k

theorem Valid.get?_eq (h : w.Valid order) (k : Bytes) :
    w.get? k = Dictionary.get? order k w.view := by
  rw [get?, lookup?, Dictionary.get?, h.find?_view, h.overlay.get?_eq, Dictionary.get?]
  cases Dictionary.find? order k w.overlay.entries with
  | none => simp [h.base.get?_eq, Dictionary.get?, Function.comp_def]
  | some e => simp [Function.comp_def]

theorem Valid.contains_eq (h : w.Valid order) (k : Bytes) :
    w.contains k = (Dictionary.find? order k w.view).isSome := by
  rw [contains, h.get?_eq, Dictionary.isSome_get?]

theorem Valid.remaining_seekFirst (h : w.Valid order) : w.cursor.seekFirst.remaining = w.view := by
  have hspec := Position.remaining_settle h.base.ascending h.overlay.ascending
  simpa only [MergedCursor.remaining, MergedCursor.seekFirst, cursor, MergedCursor.create,
    h.overlay.order_eq, view, h.base.order_eq] using hspec

theorem Valid.remaining_seek (h : w.Valid order) (k : Bytes) :
    (w.cursor.seek k).remaining = Dictionary.startingAt order k w.view := by
  have hspec := Position.remaining_settle (h.base.ascending.startingAt k)
    (h.overlay.ascending.startingAt k)
  rw [Staged.override_startingAt h.base.ascending h.overlay.ascending] at hspec
  simpa only [MergedCursor.remaining, MergedCursor.seek, cursor, MergedCursor.create,
    h.overlay.order_eq, view, h.base.order_eq, h.base.startingAt_eq, h.overlay.startingAt_eq]
    using hspec

theorem Valid.entries_eq (h : w.Valid order) : w.entries = w.view := h.remaining_seekFirst

theorem Valid.startingAt_eq (h : w.Valid order) (k : Bytes) :
    w.startingAt k = Dictionary.startingAt order k w.view := h.remaining_seek k

omit [TransCmp order] in
theorem Valid.mem_extending (h : w.Valid KeyOrder.lexicographic) {start : Bytes} {e : Entry} :
    e ∈ w.extending start ↔ e ∈ w.view ∧ start <+: e.1 := by
  rw [extending, h.startingAt_eq, Dictionary.mem_takeWhile_prefix h.ascending_view]

theorem put_eq_ok {k v : Bytes} (h : w.put k v = .ok w') :
    ∃ o, w.overlay.put k (Staged.upsert v) = .ok o ∧ w' = { w with overlay := o } := by
  simp only [put, bind, Except.bind, pure, Except.pure] at h
  split at h
  · contradiction
  next o ho => exact ⟨o, ho, (Except.ok.inj h).symm⟩

theorem put_error {k v : Bytes} {e : Error} (h : w.put k v = .error e) : e.IsExhaustion := by
  simp only [put, bind, Except.bind, pure, Except.pure] at h
  split at h
  next ho =>
    cases h
    exact Overlay.put_error ho
  · contradiction

theorem delete_error {k : Bytes} {e : Error} (h : w.delete k = .error e) : e.IsExhaustion := by
  simp only [delete, bind, Except.bind, pure, Except.pure] at h
  split at h
  · split at h
    next ho =>
      cases h
      exact Overlay.put_error ho
    · contradiction
  · contradiction

theorem Valid.put (h : w.Valid order) {k v : Bytes} (hput : w.put k v = .ok w') :
    w'.Valid order ∧ w'.base = w.base ∧ w'.view = Dictionary.insert order k v w.view := by
  obtain ⟨o, ho, rfl⟩ := put_eq_ok hput
  obtain ⟨hvalid, hentries⟩ := h.overlay.put ho
  have h' : Valid order { w with overlay := o } := ⟨h.base, hvalid⟩
  refine ⟨h', rfl, h'.ascending_view.ext_find? (h.ascending_view.insert k v) fun j => ?_⟩
  rw [h'.find?_view, Dictionary.find?_insert h.ascending_view, h.find?_view]
  dsimp only
  rw [hentries, Dictionary.find?_insert h.overlay.ascending]
  by_cases hjk : order j k = .eq
  · simp [hjk]
  · simp [hjk]

theorem delete_eq_ok {k : Bytes} (h : w.delete k = .ok w') :
    ((w.base.get? k).isSome ∧ ∃ o, w.overlay.put k Staged.tombstone = .ok o ∧
        w' = { w with overlay := o }) ∨
      ((w.base.get? k).isSome = false ∧ w' = { w with overlay := (w.overlay.remove k).2 }) := by
  simp only [delete, bind, Except.bind, pure, Except.pure] at h
  split at h
  next hb =>
    split at h
    · contradiction
    next o ho => exact .inl ⟨hb, o, ho, (Except.ok.inj h).symm⟩
  next hb => exact .inr ⟨by simpa using hb, (Except.ok.inj h).symm⟩

theorem Valid.delete (h : w.Valid order) {k : Bytes} (hdelete : w.delete k = .ok w') :
    w'.Valid order ∧ w'.base = w.base ∧ w'.view = Dictionary.erase order k w.view := by
  rcases delete_eq_ok hdelete with ⟨-, o, ho, rfl⟩ | ⟨hnone, rfl⟩
  · obtain ⟨hvalid, hentries⟩ := h.overlay.put ho
    have h' : Valid order { w with overlay := o } := ⟨h.base, hvalid⟩
    refine ⟨h', rfl, h'.ascending_view.ext_find? (h.ascending_view.erase k) fun j => ?_⟩
    rw [h'.find?_view, Dictionary.find?_erase h.ascending_view, h.find?_view]
    dsimp only
    rw [hentries, Dictionary.find?_insert h.overlay.ascending]
    by_cases hjk : order j k = .eq
    · simp [hjk]
    · simp [hjk]
  · obtain ⟨hvalid, hentries⟩ := h.overlay.remove k
    have h' : Valid order { w with overlay := (w.overlay.remove k).2 } := ⟨h.base, hvalid⟩
    refine ⟨h', rfl, h'.ascending_view.ext_find? (h.ascending_view.erase k) fun j => ?_⟩
    rw [h'.find?_view, Dictionary.find?_erase h.ascending_view, h.find?_view]
    dsimp only
    rw [hentries, Dictionary.find?_erase h.overlay.ascending]
    by_cases hjk : order j k = .eq
    · have hbase : Dictionary.find? order k w.base.entries = none := by
        rw [h.base.get?_eq, Dictionary.isSome_get?] at hnone
        simpa using hnone
      simp [hjk, Dictionary.find?_congr hjk, hbase]
    · simp [hjk]

omit [TransCmp order] in
theorem Valid.reset (h : w.Valid order) : w.reset.Valid order ∧ w.reset.view = w.base.entries :=
  have ⟨hvalid, hentries⟩ := h.overlay.reset
  ⟨⟨h.base, hvalid⟩, view_of_entries_eq_nil hentries⟩

omit [TransCmp order] in
theorem Valid.refresh (h : w.Valid order) {base : Table} (hb : base.Valid order) :
    (w.refresh base).Valid order := ⟨hb, h.overlay⟩

omit [TransCmp order] in
theorem Valid.pending_eq_zero_iff (h : w.Valid order) : w.pending = 0 ↔ w.overlay.entries = [] :=
  h.overlay.size_eq_zero_iff

end Workspace

end ObjectGraph

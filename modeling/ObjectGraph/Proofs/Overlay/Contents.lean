import ObjectGraph.Overlay.Basic
import ObjectGraph.Proofs.Overlay.SearchTree

namespace ObjectGraph

def Error.IsExhaustion : Error → Prop
  | .arenaExhausted .. => True
  | _ => False

namespace Overlay

open Dictionary (Ascending)
open Std (TransCmp)

structure Valid (order : KeyOrder) (o : Overlay) : Prop where
  order_eq : o.order = order
  within : o.tree.Within order none none
  size_eq : o.size = o.entries.length

variable {order : KeyOrder} [TransCmp order] {o : Overlay}

omit [TransCmp order] in
theorem create_spec {capacity pageSize : Nat} (h : create order capacity pageSize = .ok o) :
    o.Valid order ∧ o.entries = [] := by
  simp only [create, bind, Except.bind, pure, Except.pure] at h
  split at h
  · contradiction
  · cases h
    exact ⟨⟨rfl, ⟨Ascending.nil, by simp⟩, rfl⟩, rfl⟩

theorem Valid.ascending (h : o.Valid order) : Ascending order o.entries :=
  Tree.Within.ascending _ h.within

theorem Valid.find?_eq (h : o.Valid order) (k : Bytes) :
    o.find? k = Dictionary.find? order k o.entries := by
  rw [find?, h.order_eq]
  exact Tree.find?_eq k _ h.within

theorem Valid.get?_eq (h : o.Valid order) (k : Bytes) :
    o.get? k = Dictionary.get? order k o.entries := by
  rw [get?, h.find?_eq, Dictionary.get?]

theorem Valid.get?_of_entries_eq_nil (h : o.Valid order) (hempty : o.entries = []) (k : Bytes) :
    o.get? k = none := by
  rw [h.get?_eq, hempty]
  rfl

theorem put_eq_ok {k v : Bytes} {o' : Overlay} (h : o.put k v = .ok o') :
    ∃ quota, o' = { o with
      quota
      tree := o.tree.insert o.order k v
      size := if (o.find? k).isSome then o.size else o.size + 1 } := by
  simp only [put, bind, Except.bind, pure, Except.pure] at h
  split at h
  · contradiction
  · exact ⟨_, (Except.ok.inj h).symm⟩

theorem put_error {k v : Bytes} {e : Error} (h : o.put k v = .error e) : e.IsExhaustion := by
  simp only [put, Quota.take, bind, Except.bind, pure, Except.pure] at h
  split at h
  next ht =>
    cases h
    split at ht
    · contradiction
    · cases ht
      trivial
  · contradiction

theorem Valid.put (h : o.Valid order) {k v : Bytes} {o' : Overlay} (hput : o.put k v = .ok o') :
    o'.Valid order ∧ o'.entries = Dictionary.insert order k v o.entries := by
  obtain ⟨quota, rfl⟩ := put_eq_ok hput
  obtain ⟨hentries, hwithin⟩ := Tree.insert_spec k v h.within
  rw [← h.order_eq] at hentries hwithin
  have he : (o.tree.insert o.order k v).entries = Dictionary.insert order k v o.entries :=
    h.order_eq ▸ hentries
  refine ⟨⟨h.order_eq, h.order_eq ▸ hwithin, ?_⟩, he⟩
  change _ = (o.tree.insert o.order k v).entries.length
  rw [he, Dictionary.length_insert, h.find?_eq, h.size_eq]

theorem Valid.remove (h : o.Valid order) (k : Bytes) :
    (o.remove k).2.Valid order ∧ (o.remove k).2.entries = Dictionary.erase order k o.entries := by
  rw [Overlay.remove]
  have hfind := h.find?_eq k
  cases hf : o.find? k with
  | none =>
    rw [hf] at hfind
    exact ⟨h, (Dictionary.erase_of_find?_eq_none hfind.symm).symm⟩
  | some e =>
    obtain ⟨hentries, hwithin⟩ := Tree.erase_spec k _ h.within
    have he : (o.tree.erase o.order k).entries = Dictionary.erase order k o.entries :=
      h.order_eq ▸ hentries
    refine ⟨⟨h.order_eq, h.order_eq.symm ▸ hwithin, ?_⟩, he⟩
    change o.size - 1 = (o.tree.erase o.order k).entries.length
    rw [he, Dictionary.length_erase, ← hfind, hf, h.size_eq]
    rfl

omit [TransCmp order] in
theorem Valid.reset (h : o.Valid order) : o.reset.Valid order ∧ o.reset.entries = [] :=
  ⟨⟨h.order_eq, ⟨Ascending.nil, by simp⟩, rfl⟩, rfl⟩

theorem Valid.startingAt_eq (h : o.Valid order) (k : Bytes) :
    o.startingAt k = Dictionary.startingAt order k o.entries := by
  have hspec := Tree.leavesFrom_spec k _ h.within
  rw [Overlay.startingAt, h.order_eq]
  cases hl : o.tree.leavesFrom order k with
  | nil => exact absurd hl (Tree.leavesFrom_ne_nil k _)
  | cons es later => rwa [hl] at hspec

omit [TransCmp order] in
theorem Valid.size_eq_zero_iff (h : o.Valid order) : o.size = 0 ↔ o.entries = [] := by
  rw [h.size_eq, List.length_eq_zero_iff]

end Overlay

end ObjectGraph

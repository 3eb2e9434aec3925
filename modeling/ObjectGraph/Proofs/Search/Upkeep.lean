import ObjectGraph.Proofs.Key
import ObjectGraph.Proofs.Search.Postings
import ObjectGraph.Proofs.Search.Staging
import ObjectGraph.Proofs.Workspace.Replay

namespace ObjectGraph

open Dictionary (Ascending)
open Stateful (Triple)

structure Table.Lists (keys : Bytes → Prop) (t : Table) : Prop where
  order_eq : t.order = KeyOrder.search
  postings : Postings t.entries
  mem_iff : ∀ key, key ∈ t.entries.map Prod.fst ↔ keys key

section Writing

variable {keys : Bytes → Prop} {table : Table} {t : TableId} {x x' : WriteTxn} {key : Bytes}

theorem Table.Lists.insert (h : table.Lists keys) (hkey : Indexable key) (v : Bytes) :
    (table.withEntries (Dictionary.insert table.order key v table.entries)).Lists
      (IndexEdit.insert.revise (· = key) keys) := by
  obtain ⟨hpostings, hmem⟩ := h.postings.insert hkey v
  rw [h.order_eq]
  exact ⟨h.order_eq, hpostings, fun j => (hmem j).trans (or_congr_right (h.mem_iff j))⟩

theorem Table.Lists.erase (h : table.Lists keys) (hkey : Indexable key) :
    (table.withEntries (Dictionary.erase table.order key table.entries)).Lists
      (IndexEdit.remove.revise (· = key) keys) := by
  obtain ⟨hpostings, hmem⟩ := h.postings.erase hkey
  rw [h.order_eq]
  exact ⟨h.order_eq, hpostings, fun j => (hmem j).trans (and_congr_left' (h.mem_iff j))⟩

theorem Table.Lists.congr {keys' : Bytes → Prop} (h : table.Lists keys)
    (hiff : ∀ key, keys key ↔ keys' key) : table.Lists keys' :=
  ⟨h.order_eq, h.postings, fun key => (h.mem_iff key).trans (hiff key)⟩

theorem lists_of_delete {found : Bool} (ht : x.working.tables[t]? = some table)
    (h : table.Lists keys) (hkey : Indexable key) (hdelete : x.delete t key = .ok (found, x')) :
    ∃ table', x'.working.tables[t]? = some table' ∧
      table'.Lists (IndexEdit.remove.revise (· = key) keys) := by
  obtain ⟨_, _, hdelete', hreplaces, -⟩ := WriteTxn.delete_spec (k := key) ht
  cases hdelete.symm.trans hdelete'
  exact ⟨_, hreplaces.getElem?_self ht, h.erase hkey⟩

theorem Indexer.lists_of_writeKey {e : Entry} (ht : x.working.tables[t]? = some table)
    (h : table.Lists keys) (he : Indexable e.1.dropLast) (hwrite : writeKey t x e = .ok x') :
    ∃ table', x'.working.tables[t]? = some table' ∧ table'.Lists (Settled [e] keys) := by
  have hsingle : Ascending KeyOrder.ignoringLast [e] := List.pairwise_singleton ..
  have hsettled (key : Bytes) : Settled [e] keys key ↔
      if key = e.1.dropLast then e.1.getLast? = some IndexEdit.insert.mark else keys key := by
    rw [Settled, lastWord?_cons hsingle]
    split
    · exact decide_eq_true_iff
    · rfl
  rw [writeKey] at hwrite
  by_cases hmark : e.1.getLast? = some IndexEdit.insert.mark
  · rw [if_pos hmark] at hwrite
    refine ⟨_, (WriteTxn.put_spec ht hwrite).1.getElem?_self ht, (h.insert he []).congr fun key => ?_⟩
    by_cases hkey : key = e.1.dropLast
    · simp [hsettled, IndexEdit.revise, hkey, hmark]
    · simp [hsettled, IndexEdit.revise, hkey]
  · rw [if_neg hmark] at hwrite
    obtain ⟨⟨found, y⟩, hdelete, rfl⟩ := Stateful.map_eq_ok.mp hwrite
    obtain ⟨table', ht', h'⟩ := lists_of_delete ht h he hdelete
    refine ⟨table', ht', h'.congr fun key => ?_⟩
    by_cases hkey : key = e.1.dropLast
    · simp [hsettled, IndexEdit.revise, hkey, hmark]
    · simp [hsettled, IndexEdit.revise, hkey]

theorem Indexer.lists_of_writes {staged : List Entry}
    (hstaged : Ascending KeyOrder.ignoringLast staged)
    (hindexable : ∀ e ∈ staged, Indexable e.1.dropLast)
    (ht : x.working.tables[t]? = some table) (h : table.Lists keys)
    (hwrites : staged.foldlM (writeKey t) x = .ok x') :
    ∃ table', x'.working.tables[t]? = some table' ∧ table'.Lists (Settled staged keys) := by
  induction staged generalizing x table keys with
  | nil =>
    cases hwrites
    exact ⟨table, ht, h⟩
  | cons e staged ih =>
    rw [List.foldlM_cons] at hwrites
    obtain ⟨y, hwrite, hwrites⟩ := Stateful.bind_eq_ok.mp hwrites
    obtain ⟨table', ht', h'⟩ := lists_of_writeKey ht h (hindexable e List.mem_cons_self) hwrite
    obtain ⟨table'', ht'', h''⟩ :=
      ih hstaged.tail (fun a ha => hindexable a (List.mem_cons_of_mem _ ha)) ht' h' hwrites
    exact ⟨table'', ht'', h''.congr fun key => (settled_cons hstaged keys key).symm⟩

theorem Indexer.frame_of_writeKey {e : Entry} (h : writeKey t x e = .ok x') :
    WriteTxn.Frame (· = t) x x' := by
  rw [writeKey] at h
  split at h
  · exact WriteTxn.frame_of_put h
  · obtain ⟨⟨found, y⟩, hdelete, rfl⟩ := Stateful.map_eq_ok.mp h
    exact WriteTxn.frame_of_delete hdelete

theorem Indexer.flush_eq_ok {i i' : Indexer} {n : Nat}
    (h : i.flush t x = .ok (n, x', i')) :
    n = i.staged.entries.length ∧ i.staged.entries.foldlM (writeKey t) x = .ok x' ∧
      i' = i.reset := by
  obtain ⟨y, hwrites, h⟩ := Stateful.bind_eq_ok.mp h
  cases h
  exact ⟨rfl, hwrites, rfl⟩

theorem Indexer.frame_of_flush {i i' : Indexer} {n : Nat} (h : i.flush t x = .ok (n, x', i')) :
    WriteTxn.Frame (· = t) x x' := by
  obtain ⟨-, hwrites, -⟩ := flush_eq_ok h
  exact WriteTxn.Frame.foldlM (fun _ _ _ => frame_of_writeKey) hwrites

theorem Indexer.lists_of_flush {after : Bytes → Prop} {i i' : Indexer} {n : Nat}
    (hi : i.Turns keys after) (ht : x.working.tables[t]? = some table) (h : table.Lists keys)
    (hflush : i.flush t x = .ok (n, x', i')) :
    ∃ table', x'.working.tables[t]? = some table' ∧ table'.Lists after := by
  obtain ⟨-, hwrites, -⟩ := flush_eq_ok hflush
  obtain ⟨table', ht', h'⟩ := lists_of_writes hi.valid.ascending hi.indexable ht h hwrites
  exact ⟨table', ht', h'.congr hi.settled_iff⟩

end Writing

section Changing

variable {schema : Schema} {d : List Entry} {e : Entry}

theorem mem_apply (hd : Ascending KeyOrder.lexicographic d) {k v : Bytes} :
    (k, v) ∈ Staged.apply KeyOrder.lexicographic d e ↔
      if k = e.1 then Staged.payload? e.2 = some v else (k, v) ∈ d := by
  rw [Staged.apply]
  cases hpayload : Staged.payload? e.2 with
  | some w =>
    rw [Dictionary.mem_insert hd, Ne, KeyOrder.lexicographic_eq_iff, Prod.mk.injEq]
    by_cases hk : k = e.1
    · simp [hk, eq_comm]
    · simp [hk, Ne.symm hk]
  | none =>
    rw [Dictionary.mem_erase hd, Ne, KeyOrder.lexicographic_eq_iff]
    by_cases hk : k = e.1
    · simp [hk]
    · simp [hk, Ne.symm hk]

theorem derived_apply_field (hd : Ascending KeyOrder.lexicographic d) {object field : Id}
    (he : Key.ofBytes? e.1 = some (.field object field)) (key : Bytes) :
    Derived schema (Staged.apply KeyOrder.lexicographic d e) key ↔
      (schema.isIndexed field ∧ ∃ new ∈ Staged.payload? e.2, Posts object field new key) ∨
        Derived schema d key ∧
          ¬ ∃ old ∈ Dictionary.get? KeyOrder.lexicographic e.1 d, Posts object field old key := by
  have hkey : e.1 = (Key.field object field).bytes := Key.bytes_eq_of_ofBytes? he
  constructor
  · rintro ⟨object', field', raw, hmem, hindexed, hposts⟩
    rw [mem_apply hd] at hmem
    by_cases hsame : (Key.field object' field').bytes = e.1
    · rw [if_pos hsame] at hmem
      rw [hkey, Key.bytes_inj, Key.field.injEq] at hsame
      obtain ⟨rfl, rfl⟩ := hsame
      exact .inl ⟨hindexed, raw, hmem, hposts⟩
    · rw [if_neg hsame] at hmem
      refine .inr ⟨⟨object', field', raw, hmem, hindexed, hposts⟩, ?_⟩
      rintro ⟨old, -, hold⟩
      obtain ⟨rfl, rfl⟩ := hposts.unique hold
      exact hsame hkey.symm
  · rintro (⟨hindexed, new, hnew, hposts⟩ | ⟨⟨object', field', raw, hmem, hindexed, hposts⟩, hgone⟩)
    · refine ⟨object, field, new, ?_, hindexed, hposts⟩
      rwa [mem_apply hd, if_pos hkey.symm]
    · refine ⟨object', field', raw, ?_, hindexed, hposts⟩
      rw [mem_apply hd, if_neg]
      · exact hmem
      · intro hsame
        rw [hkey, Key.bytes_inj, Key.field.injEq] at hsame
        obtain ⟨rfl, rfl⟩ := hsame
        exact hgone ⟨raw, (Dictionary.get?_eq_some_iff hd).mpr (hkey ▸ hmem), hposts⟩

def Staged.Filled (e : Entry) : Prop :=
  ∀ object field, e.1 = (Key.field object field).bytes → Staged.payload? e.2 ≠ some []

theorem valued_apply (hd : Ascending KeyOrder.lexicographic d) (h : Valued schema d)
    (hnew : ∀ object field, e.1 = (Key.field object field).bytes → schema.isIndexed field →
      ∀ new ∈ Staged.payload? e.2, ∃ x, Value.decode new = .ok (some x)) :
    Valued schema (Staged.apply KeyOrder.lexicographic d e) := by
  intro object field raw hmem hindexed
  rw [mem_apply hd] at hmem
  by_cases hsame : (Key.field object field).bytes = e.1
  · rw [if_pos hsame] at hmem
    exact hnew object field hsame.symm hindexed raw hmem
  · rw [if_neg hsame] at hmem
    exact h object field raw hmem hindexed

theorem mem_apply_of_idle {table : Table} (hvalid : table.Valid KeyOrder.lexicographic)
    (h : ∀ object field, Key.ofBytes? e.1 = some (.field object field) →
      (Replay.changeOf table e).IsNoop ∨ ¬ schema.isIndexed field)
    {object field : Id} (hindexed : schema.isIndexed field) {raw : Bytes} :
    ((Key.field object field).bytes, raw) ∈ Staged.apply KeyOrder.lexicographic table.entries e ↔
      ((Key.field object field).bytes, raw) ∈ table.entries := by
  rw [mem_apply hvalid.ascending]
  by_cases hkey : (Key.field object field).bytes = e.1
  · rw [if_pos hkey]
    rcases h object field (hkey ▸ Key.ofBytes?_bytes _) with hnoop | hunindexed
    · have hsame : Staged.payload? e.2 =
          Dictionary.get? KeyOrder.lexicographic e.1 table.entries := by
        rw [← hvalid.get?_eq]
        exact hnoop.symm
      rw [hsame, hkey, Dictionary.get?_eq_some_iff hvalid.ascending]
    · exact absurd hindexed hunindexed
  · rw [if_neg hkey]

theorem derived_apply_of_idle {table : Table} (hvalid : table.Valid KeyOrder.lexicographic)
    (h : ∀ object field, Key.ofBytes? e.1 = some (.field object field) →
      (Replay.changeOf table e).IsNoop ∨ ¬ schema.isIndexed field) (key : Bytes) :
    Derived schema (Staged.apply KeyOrder.lexicographic table.entries e) key ↔
      Derived schema table.entries key := by
  constructor
  · rintro ⟨object, field, raw, hmem, hindexed, hposts⟩
    exact ⟨object, field, raw, (mem_apply_of_idle hvalid h hindexed).mp hmem, hindexed, hposts⟩
  · rintro ⟨object, field, raw, hmem, hindexed, hposts⟩
    exact ⟨object, field, raw, (mem_apply_of_idle hvalid h hindexed).mpr hmem, hindexed, hposts⟩

theorem valued_apply_of_idle {table : Table} (hvalid : table.Valid KeyOrder.lexicographic)
    (h : ∀ object field, Key.ofBytes? e.1 = some (.field object field) →
      (Replay.changeOf table e).IsNoop ∨ ¬ schema.isIndexed field)
    (hvalued : Valued schema table.entries) :
    Valued schema (Staged.apply KeyOrder.lexicographic table.entries e) := by
  intro object field raw hmem hindexed
  exact hvalued object field raw ((mem_apply_of_idle hvalid h hindexed).mp hmem) hindexed

theorem Indexer.observe_entry_triple {before : Bytes → Prop} {table : Table}
    (hvalid : table.Valid KeyOrder.lexicographic) (hvalued : Valued schema table.entries)
    (hfilled : Staged.Filled e) :
    Triple (Turns before (Derived schema table.entries))
      (observe schema (Replay.changeOf table e))
      (fun _ i => i.Turns before
          (Derived schema (Staged.apply KeyOrder.lexicographic table.entries e)) ∧
        Valued schema (Staged.apply KeyOrder.lexicographic table.entries e))
      (fun _ => Marking) := by
  have hd := hvalid.ascending
  by_cases hidle : ∀ object field, Key.ofBytes? e.1 = some (.field object field) →
      (Replay.changeOf table e).IsNoop ∨ ¬ schema.isIndexed field
  · rw [observe_of_idle hidle]
    apply Triple.pure
    intro i hi
    exact ⟨hi.congr fun key => (derived_apply_of_idle hvalid hidle key).symm,
      valued_apply_of_idle hvalid hidle hvalued⟩
  · simp only [Classical.not_forall, not_or, Classical.not_not] at hidle
    obtain ⟨object, field, hfield, hnoop, hindexed⟩ := hidle
    have hkey : e.1 = (Key.field object field).bytes := Key.bytes_eq_of_ofBytes? hfield
    refine (observe_triple hfield hnoop hindexed).mono (fun _ hi => hi) ?_ fun _ _ hi => hi
    rintro _ i ⟨hi, hread⟩
    constructor
    · refine hi.congr fun key => ?_
      rw [derived_apply_field hd hfield, ← hvalid.get?_eq]
      simp only [hindexed, true_and]
      rfl
    · apply valued_apply hd hvalued
      intro object' field' _ _ new hnew
      obtain ⟨x, hx⟩ := hread new hnew
      cases x with
      | none =>
        rw [Value.eq_nil_of_decode hx] at hnew
        exact absurd hnew (hfilled object field hkey)
      | some x => exact ⟨x, hx⟩

end Changing

end ObjectGraph
